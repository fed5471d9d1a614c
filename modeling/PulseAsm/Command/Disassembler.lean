import PulseAsm.Analysis.Text
import PulseAsm.Binary
import PulseAsm.Command.Basic

/-!
# Disassembling images

The command that analyses a program image and prints what it found.
-/

namespace PulseAsm.Command

/-- How a report is written. -/
inductive ReportFormat where
  /-- As a listing. -/
  | text
  /-- As JSON. -/
  | json
  deriving DecidableEq

/-- The format with a name. -/
def ReportFormat.ofName? : String → Option ReportFormat
  | "text" => some .text
  | "json" => some .json
  | _ => none

/-- What the disassembler is asked to do. -/
structure DisasmOptions where
  /-- The bytes to pass over at the start of the image. -/
  skip : Nat := 0
  /-- How the report is written. -/
  format : ReportFormat := .text
  /-- Whether jump targets have names. -/
  named : Bool := false
  /-- Where to write the labels. -/
  labelsOut : Option String := none
  /-- Where to write the report, if not to the output stream. -/
  out : Option String := none

/-- The words of an image file behind its first `skip` bytes. -/
def loadImage (bytes : List UInt8) (skip : Nat) : Except Failure (List Word) :=
  if bytes.length < skip then .error (.other "--skip exceeds file size")
  else
    match Image.ofBytes? (bytes.drop skip) with
    | some words => .ok words
    | none =>
      .error (.other s!"image length {bytes.length - skip} is not a multiple of 8 bytes")

/-- A report as it is asked for. -/
def renderReport (r : Report) (o : DisasmOptions) : String :=
  match o.format with
  | .json => r.toJson.pretty 0
  | .text => r.text o.named

/-- The command that disassembles an image. -/
def disassemble (bytes : List UInt8) (o : DisasmOptions) : Outcome :=
  match loadImage bytes o.skip with
  | .error e => { failure := some e }
  | .ok words =>
    match analyze? words with
    | none => { failure := some (.other "attempt to add with overflow") }
    | some report =>
      let labels := match o.labelsOut with
        | some path => [⟨path, .text (report.labelsJson.pretty 0)⟩]
        | none => []
      let text := renderReport report o
      match o.out with
      | some path => { files := labels ++ [⟨path, .text text⟩] }
      | none => { files := labels, stdout := text }

end PulseAsm.Command
