import PulseAsm.Board.Basic
import PulseAsm.Json.Parser
import PulseAsm.Json.Reader

/-!
# Board descriptions

A board as a JSON text. Every field must be there; fields that are not known are
passed over.
-/

namespace PulseAsm

open Json

/-! ### Fields -/

/-- The fields of a generator. -/
def Generator.fields : List String :=
  ["samps_per_clk", "maxv", "maxv_scale", "f_fabric", "f_dds", "b_dds"]

/-- The fields of a readout. -/
def Readout.fields : List String := ["trigger", "f_fabric"]

/-- The fields of the processor of a board. -/
def Board.coreFields : List String := ["pages", "regs_per_page", "f_time", "output_pins"]

/-- The fields of a board. -/
def Board.fields : List String := ["tproc", "gens", "readouts"]

/-- What is read of the text of a board. -/
def Board.schema : Schema :=
  let record (fields : List String) : Schema := .record (fields.map (·, .all))
  .record [("tproc", record Board.coreFields), ("gens", .list (record Generator.fields)),
    ("readouts", .list (record Readout.fields))]

/-! ### Records -/

/-- A trigger port: a record tagged by its type. -/
def TriggerPort.ofJson? (v : Json) : Option TriggerPort := do
  let (kind, rest) ← tagged? "type" v
  match kind with
  | "dport" =>
    let fs ← Fields.ofJson? ["port", "bit"] false rest
    return .dport (← fs.required "port" (asNat? 8)) (← fs.required "bit" (asNat? 8))
  | "pulsed" =>
    let fs ← Fields.ofJson? ["port"] false rest
    return .pulsed (← fs.required "port" (asNat? 8))
  | _ => none

/-- A generator. -/
def Generator.ofJson? (v : Json) : Option Generator := do
  let fs ← Fields.ofJson? fields false v
  return {
    samplesPerClock := ← fs.required "samps_per_clk" (asNat? 32)
    fullScale := ← fs.required "maxv" (asInt? (-0x80000000) 0x7FFFFFFF)
    scale := ← fs.required "maxv_scale" asFloat?
    fabricClock := ← fs.required "f_fabric" asFloat?
    ddsRate := ← fs.required "f_dds" asFloat?
    ddsBits := ← fs.required "b_dds" (asNat? 32) }

/-- A readout. -/
def Readout.ofJson? (v : Json) : Option Readout := do
  let fs ← Fields.ofJson? fields false v
  return {
    trigger := ← fs.required "trigger" TriggerPort.ofJson?
    fabricClock := ← fs.required "f_fabric" asFloat? }

namespace Board

/-- A board. -/
def ofJson? (v : Json) : Option Board := do
  let fs ← Fields.ofJson? fields false v
  let core ← fs.required "tproc" (Fields.ofJson? coreFields false)
  return {
    pages := ← core.required "pages" (asNat? 8)
    regsPerPage := ← core.required "regs_per_page" (asNat? 8)
    timingClock := ← core.required "f_time" asFloat?
    pins := ← core.required "output_pins" (asList? TriggerPort.ofJson?)
    gens := ← fs.required "gens" (asList? Generator.ofJson?)
    readouts := ← fs.required "readouts" (asList? Readout.ofJson?) }

/-- The board that a text describes. -/
def parse? (text : String) : Option Board := (parseBy? schema text).bind ofJson?

end Board

end PulseAsm
