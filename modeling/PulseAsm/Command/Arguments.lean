import PulseAsm.Command.Assembler
import PulseAsm.Command.Disassembler

/-!
# Command lines

The commands and their options. An option is written `--name value` or
`--name=value`, at most once each; arguments that do not make a command are
refused as a whole.
-/

namespace PulseAsm.Command

/-- A command with its options. -/
inductive Invocation where
  /-- Build a script into a directory. -/
  | build (config : Option String) (script out : String) (format : ImageFormat)
  /-- Run a script. -/
  | run (config : Option String) (script : String) (maxSteps : Nat)
  /-- Print the instruction table. -/
  | isa
  /-- Disassemble an image. -/
  | disasm (input : String) (options : DisasmOptions)

namespace Arguments

/-- Arguments by their role. -/
structure Parsed where
  /-- The options that have a value. -/
  options : List (String × String) := []
  /-- The options that have none. -/
  switches : List String := []
  /-- The other arguments. -/
  operands : List String := []

/-- Whether an argument looks like an option. -/
def isOption (s : String) : Bool := s.toList.head? == some '-' && s.length > 1

/-- The name and the value of an argument of the form `--name=value`. -/
def splitOption (s : String) : String × Option String :=
  let cs := s.toList
  match cs.dropWhile (· != '=') with
  | _ :: value => (String.ofList (cs.takeWhile (· != '=')), some (String.ofList value))
  | [] => (s, none)

/-- An option with its value, unless it has been given before. -/
def Parsed.addOption (p : Parsed) (name value : String) : Option Parsed :=
  if (p.options.lookup name).isSome then none
  else some { p with options := p.options ++ [(name, value)] }

/-- Sort arguments by their role, given the options that take a value and the
switches that do not. -/
def sortArgs (valued plain : List String) : List String → Parsed → Option Parsed
  | [], p => some p
  | arg :: rest, p =>
    if isOption arg then
      match splitOption arg with
      | (name, some value) =>
        if name ∈ valued then (p.addOption name value).bind (sortArgs valued plain rest) else none
      | (name, none) =>
        if name ∈ plain then
          if name ∈ p.switches then none
          else sortArgs valued plain rest { p with switches := p.switches ++ [name] }
        else if name ∈ valued then
          match rest with
          | value :: rest =>
            if isOption value then none
            else (p.addOption name value).bind (sortArgs valued plain rest)
          | [] => none
        else none
    else sortArgs valued plain rest { p with operands := p.operands ++ [arg] }

/-- A number of at most 64 bits. -/
def number? (s : String) : Option Nat :=
  let digits := match s.toList with
    | '+' :: rest => rest
    | cs => cs
  match digits with
  | [] => none
  | _ =>
    if digits.all Char.isDigit then
      let n := digits.foldl (fun n c => 10 * n + (c.toNat - 48)) 0
      if n < 1 <<< 64 then some n else none
    else none

/-- An option read by `read`, with a value for when it is not given. -/
def Parsed.option (p : Parsed) (name : String) (read : String → Option α) (d : α) : Option α :=
  match p.options.lookup name with
  | some s => read s
  | none => some d

/-- The command that arguments stand for. -/
def parse? : List String → Option Invocation
  | "build" :: args => do
    let p ← sortArgs ["--config", "--script", "--out", "--format"] [] args {}
    guard p.operands.isEmpty
    return .build (p.options.lookup "--config") (← p.options.lookup "--script")
      (← p.option "--out" some "out") (← p.option "--format" ImageFormat.ofName? .hex)
  | "run" :: args => do
    let p ← sortArgs ["--config", "--script", "--max-steps"] [] args {}
    guard p.operands.isEmpty
    return .run (p.options.lookup "--config") (← p.options.lookup "--script")
      (← p.option "--max-steps" number? defaultMaxSteps)
  | ["isa"] => some .isa
  | "disasm" :: args => do
    let p ← sortArgs ["--skip", "--format", "--labels-out", "--out"] ["--labels"] args {}
    match p.operands with
    | [input] =>
      return .disasm input {
        skip := ← p.option "--skip" number? 0
        format := ← p.option "--format" ReportFormat.ofName? .text
        named := "--labels" ∈ p.switches
        labelsOut := p.options.lookup "--labels-out"
        out := p.options.lookup "--out" }
    | _ => none
  | _ => none

end Arguments

end PulseAsm.Command
