import PulseAsm.Command.Arguments

/-!
# The program

The outer layer of the commands: it reads the files that a command needs, and
writes what the command leaves behind.
-/

namespace PulseAsm.Command

/-- A text file to be read; one that cannot be read has no text. -/
def readSource (path : String) : IO Source := do
  try
    return ⟨path, some (← IO.FS.readFile path)⟩
  catch _ =>
    return ⟨path, none⟩

/-- Write a file under a directory. -/
def writeOutput (dir : String) (f : OutputFile) : IO Unit :=
  let path := if dir.isEmpty then f.path else dir ++ "/" ++ f.path
  match f.content with
  | .text s => IO.FS.writeFile path s
  | .bytes bs => IO.FS.writeBinFile path ⟨bs.toArray⟩

/-- Leave behind what a command does, its files under a directory. -/
def deliver (dir : String) (o : Outcome) : IO UInt32 := do
  o.files.forM (writeOutput dir)
  (← IO.getStdout).putStr o.stdout
  (← IO.getStderr).putStr o.stderr
  match o.failure with
  | none => return 0
  | some e =>
    IO.eprintln s!"Error: {e.heading}"
    if let some cause := e.cause? then
      IO.eprintln s!"\nCaused by:\n    {cause}"
    return 1

/-- Whether a command got as far as to write files. -/
def started (o : Outcome) : Bool := o.failure.isNone || !o.files.isEmpty

/-- Carry out a command. -/
def perform : Invocation → IO UInt32
  | .isa => deliver "" isa
  | .build config script out format => do
    let board ← config.mapM readSource
    let o := build board (← readSource script) format
    if started o then IO.FS.createDirAll (out ++ "/envelopes")
    deliver out o
  | .run config script maxSteps => do
    let board ← config.mapM readSource
    deliver "" (run board (← readSource script) maxSteps)
  | .disasm input options => do
    deliver "" (disassemble (← IO.FS.readBinFile input).toList options)

/-- The forms that a command line can have. -/
def usage : List String :=
  ["usage: build --script JSON [--config JSON] [--out DIR] [--format hex|bin|raw]",
   "       run --script JSON [--config JSON] [--max-steps N]",
   "       isa",
   "       disasm BINFILE [--skip N] [--format text|json] [--labels] [--labels-out FILE] [--out FILE]"]

end PulseAsm.Command

open PulseAsm.Command in
/-- Carry out the command that the arguments stand for. -/
def main (args : List String) : IO UInt32 :=
  match Arguments.parse? args with
  | some command => perform command
  | none => do
    usage.forM IO.eprintln
    return 2
