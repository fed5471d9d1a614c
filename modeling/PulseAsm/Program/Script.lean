import PulseAsm.Json.Parser
import PulseAsm.Program.Builder

/-!
# Scripts

A script is a list of building steps, written as a JSON list of records that are
tagged by `op`. Steps are applied in order, up to the first that fails.
-/

namespace PulseAsm

open Json

/-- A building step. -/
inductive Step where
  /-- Add an envelope. -/
  | envelope (ch : Nat) (name : String) (idata qdata : Option (List Float))
  /-- Add a Gaussian envelope. -/
  | gauss (ch : Nat) (name : String) (sigma : Float) (length : Nat) (top : Option Float)
      (evenLength : Bool)
  /-- Add a triangular envelope. -/
  | triangle (ch : Nat) (name : String) (length : Nat) (top : Option Float)
  /-- Define a pulse; the parameters include its style. -/
  | pulse (ch : Nat) (name : String) (params : List (String × Json))
  /-- Play a pulse, in its turn if no time is given. -/
  | play (ch : Nat) (name : String) (t : Option Nat)
  /-- Declare the acquisition length of a readout. -/
  | readout (ro length : Nat)
  /-- Trigger readouts and output pins. -/
  | trigger (ros pins : List Nat) (t width : Nat)
  /-- Bring channels to a common time. -/
  | align (gens readouts : List Nat)
  /-- Move the time reference past every channel. -/
  | syncAll (t : Nat)
  /-- Wait until a time. -/
  | wait (t : Nat)
  /-- Wait for every readout. -/
  | waitAll (t : Nat)
  /-- Open a counted loop. -/
  | openLoop (n : Nat) (name : Option String)
  /-- Close the innermost loop. -/
  | closeLoop
  /-- Bind a label. -/
  | label (name : String)
  /-- Hand out a register. -/
  | reg (page : Nat) (addr : Option Nat) (name : Option String) (kind : RegKind)
      (init : Option Int)
  /-- Load a register. -/
  | writeImm (page reg : Nat) (v : Int)
  /-- Append an instruction. -/
  | instr (mnemonic : String) (operands : List Operand) (comment : Option String)
  /-- Put all channels back at time zero. -/
  | resetTimeline
  /-- End the program. -/
  | finish

namespace Step

/-- Do a building step. -/
def apply : Step → Build Unit
  | envelope ch name idata qdata => Build.addEnvelope ch name idata qdata
  | gauss ch name sigma length top evenLength => Build.addGauss ch name sigma length top evenLength
  | triangle ch name length top => Build.addTriangle ch name length top
  | pulse ch name params => do
    let (style, params) ← Params.ofMembers params
    Build.addPulse ch name style params
  | play ch name none => discard (Build.play ch name .auto)
  | play ch name (some t) => discard (Build.play ch name (.fixed t))
  | readout ro length => Build.declareReadout ro length
  | trigger ros pins t width => Build.trigger ros pins t width
  | align gens readouts => Build.align (gens.map .gen ++ readouts.map .readout)
  | syncAll t => Build.syncAll t
  | wait t => Build.wait t
  | waitAll t => Build.waitAll t
  | openLoop n name => discard (Build.openLoop n name)
  | closeLoop => Build.closeLoop
  | label name => Build.label name
  | reg page addr name kind init => discard (Build.newReg { page, addr, name, kind, init })
  | writeImm page addr v => discard (Build.load page addr v)
  | instr mnemonic operands comment => Build.append mnemonic operands comment
  | resetTimeline => Build.resetTimeline
  | finish => Build.finish

/-! ### Reading steps -/

/-- An index or a count. -/
def asIndex? : Json → Option Nat := asNat? 64

/-- A number of cycles, rounds or clocks. -/
def asCount? : Json → Option Nat := asNat? 32

/-- A page or an address of a register. -/
def asSmall? : Json → Option Nat := asNat? 8

/-- An operand: a number, an operator symbol, or a label. -/
def asOperand? : Json → Option Operand
  | .str s => some (.ofText s)
  | v => v.asInt64?.map .value

/-- The use of a register. -/
def asRegKind? (v : Json) : Option RegKind := (v.asName? isNullOrEmpty).bind RegKind.ofName?

/-- The members of an object. -/
def asMembers? : Json → Option (List (String × Json))
  | .obj members => some members
  | _ => none

/-- The trigger width that is assumed when none is given. -/
def defaultWidth : Nat := 10

/-- A step without fields; fields that it brings all the same are passed over. -/
def bare (s : Step) : Json → Option Step
  | .obj _ => some s
  | .arr [] => some s
  | _ => none

/-- A step of a kind from its fields. -/
def ofFields? (kind : String) (rest : Json) : Option Step :=
  let fields (names : List String) : Option Fields := Fields.ofJson? names true rest
  match kind with
  | "envelope" => do
    let fs ← fields ["ch", "name", "idata", "qdata"]
    return .envelope (← fs.required "ch" asIndex?) (← fs.required "name" asString?)
      (← fs.optional "idata" (asList? asFloat?)) (← fs.optional "qdata" (asList? asFloat?))
  | "gauss" => do
    let fs ← fields ["ch", "name", "sigma", "length", "maxv", "even_length"]
    return .gauss (← fs.required "ch" asIndex?) (← fs.required "name" asString?)
      (← fs.required "sigma" asFloat?) (← fs.required "length" asCount?)
      (← fs.optional "maxv" asFloat?) (← fs.withDefault "even_length" asBool? false)
  | "triangle" => do
    let fs ← fields ["ch", "name", "length", "maxv"]
    return .triangle (← fs.required "ch" asIndex?) (← fs.required "name" asString?)
      (← fs.required "length" asCount?) (← fs.optional "maxv" asFloat?)
  | "pulse" => do
    let fs ← fields ["ch", "name", "params"]
    return .pulse (← fs.required "ch" asIndex?) (← fs.required "name" asString?)
      (← fs.required "params" asMembers?)
  | "play" => do
    let fs ← fields ["ch", "name", "t"]
    return .play (← fs.required "ch" asIndex?) (← fs.required "name" asString?)
      (← fs.optional "t" asCount?)
  | "readout" => do
    let fs ← fields ["ro", "length"]
    return .readout (← fs.required "ro" asIndex?) (← fs.required "length" asCount?)
  | "trigger" => do
    let fs ← fields ["ros", "pins", "t", "width"]
    return .trigger (← fs.withDefault "ros" (asList? asIndex?) [])
      (← fs.withDefault "pins" (asList? asIndex?) []) (← fs.withDefault "t" asCount? 0)
      (← fs.withDefault "width" asCount? defaultWidth)
  | "align" => do
    let fs ← fields ["gens", "readouts"]
    return .align (← fs.withDefault "gens" (asList? asIndex?) [])
      (← fs.withDefault "readouts" (asList? asIndex?) [])
  | "sync_all" => do
    let fs ← fields ["t"]
    return .syncAll (← fs.withDefault "t" asCount? 0)
  | "wait" => do
    let fs ← fields ["t"]
    return .wait (← fs.required "t" asCount?)
  | "wait_all" => do
    let fs ← fields ["t"]
    return .waitAll (← fs.withDefault "t" asCount? 0)
  | "open_loop" => do
    let fs ← fields ["n", "name"]
    return .openLoop (← fs.required "n" asCount?) (← fs.optional "name" asString?)
  | "close_loop" => bare .closeLoop rest
  | "label" => do
    let fs ← fields ["name"]
    return .label (← fs.required "name" asString?)
  | "reg" => do
    let fs ← fields ["page", "addr", "name", "kind", "init"]
    return .reg (← fs.required "page" asSmall?) (← fs.optional "addr" asSmall?)
      (← fs.optional "name" asString?) (← fs.withDefault "kind" asRegKind? .generic)
      (← fs.optional "init" asInt64?)
  | "write_imm" => do
    let fs ← fields ["page", "reg", "value"]
    return .writeImm (← fs.required "page" asSmall?) (← fs.required "reg" asSmall?)
      (← fs.required "value" asInt64?)
  | "instr" => do
    let fs ← fields ["mnemonic", "operands", "comment"]
    return .instr (← fs.required "mnemonic" asString?)
      (← fs.withDefault "operands" (asList? asOperand?) []) (← fs.optional "comment" asString?)
  | "reset_timestamps" => bare .resetTimeline rest
  | "end" => bare .finish rest
  | _ => none

/-- A step. -/
def ofJson? (v : Json) : Option Step := do
  let (kind, rest) ← tagged? "op" v
  ofFields? kind rest

end Step

namespace Script

/-- The steps that a text describes. -/
def parse? (text : String) : Option (List Step) :=
  (Json.parse? text).bind (asList? Step.ofJson?)

/-- Do steps in order, up to the first that fails. -/
def apply (steps : List Step) : Build Unit := steps.forM Step.apply

end Script

end PulseAsm
