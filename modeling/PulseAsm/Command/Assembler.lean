import PulseAsm.Board.Reader
import PulseAsm.Command.Basic
import PulseAsm.Device
import PulseAsm.Machine
import PulseAsm.Program.Script

/-!
# Building and running scripts

The commands that turn a script into the files of a program, run its control
flow, and print the instruction table.
-/

namespace PulseAsm.Command

open Text

/-- How a program image is written. -/
inductive ImageFormat where
  /-- A hexadecimal numeral per line. -/
  | hex
  /-- A binary numeral per line. -/
  | bin
  /-- Bytes. -/
  | raw
  deriving DecidableEq

/-- The format with a name. -/
def ImageFormat.ofName? : String → Option ImageFormat
  | "hex" => some .hex
  | "bin" => some .bin
  | "raw" => some .raw
  | _ => none

/-- The text of a source. -/
def Source.read (s : Source) : Except Failure String :=
  match s.text with
  | some text => .ok text
  | none => .error (.unreadable s.path)

/-- The board that a source describes; the standard one if there is no source. -/
def readBoard : Option Source → Except Failure Board
  | none => .ok .standard
  | some s => do
    match Board.parse? (← s.read) with
    | some board => return board
    | none => throw (.malformed s.path)

/-- The steps of a script. -/
def readScript (s : Source) : Except Failure (List Step) := do
  match Script.parse? (← s.read) with
  | some steps => return steps
  | none => throw (.malformed s.path)

/-- A program with steps done in order, the first of which has index `k`. -/
def applySteps (k : Nat) : List Step → Program → Except Failure Program
  | [], p => .ok p
  | s :: rest, p =>
    match s.apply.apply p with
    | (.ok (), p) => applySteps (k + 1) rest p
    | (.error e, _) => .error (.step k e)

/-- The error of a program as a failure of the command. -/
def ofError : Except Error α → Except Failure α
  | .ok a => .ok a
  | .error e => .error (.other e.message)

/-- The program of a script. The board is read first, then the script. -/
def readProgram (config : Option Source) (script : Source) : Except Failure Program := do
  let board ← readBoard config
  let steps ← readScript script
  let p ← ofError (Program.ofBoard board)
  applySteps 0 steps p

/-! ### Building -/

/-- Making files: a failure keeps those that have been made. -/
abbrev Files := ExceptT Failure (StateM (List OutputFile))

/-- Make a file. -/
def writeFile (path : String) (content : Content) : Files Unit :=
  modify fun files => files ++ [⟨path, content⟩]

/-- Go on with a result of the program, or fail with its error. -/
def orFail (r : Except Error α) : Files α := liftM (ofError r)

/-- Make the file of a program image. -/
def writeImage (format : ImageFormat) (words : List Word) : Files Unit :=
  match format with
  | .hex => writeFile "program.hex" (.text (Image.hex words))
  | .bin => writeFile "program.bin" (.text (Image.bin words))
  | .raw => writeFile "program.img" (.bytes (Image.toBytes words))

/-- Make the file of a generator's envelopes, unless there are none. The file is
there, and empty, when its contents are refused. -/
def writeEnvelopes (lib : EnvelopeLibrary) : Files Unit := do
  unless lib.image.isEmpty do
    let path := s!"envelopes/ch{lib.ch}.bin"
    match Device.envelopePayload lib.ch lib.image with
    | .ok payload => writeFile path (.bytes payload.bytes)
    | .error e =>
      writeFile path (.bytes [])
      throw (.other e.message)

/-- Make the files of a program. -/
def writeProgram (p : Program) (format : ImageFormat) : Files Unit := do
  let words ← orFail p.assemble
  writeImage format words
  writeFile "program.asm" (.text p.listing)
  let rows ← orFail p.waves.rows
  writeFile "waves.bin" (.bytes (Device.wavePayload rows).bytes)
  p.envelopes.forM writeEnvelopes

/-- The command that builds a script. -/
def build (config : Option Source) (script : Source) (format : ImageFormat) : Outcome :=
  match readProgram config script with
  | .error e => { failure := some e }
  | .ok p =>
    match StateT.run (ExceptT.run (writeProgram p format)) [] with
    | (.ok (), files) => { files }
    | (.error e, files) => { files, failure := some e }

/-! ### Running -/

/-- The steps that a run may take when nothing is said about it. -/
def defaultMaxSteps : Nat := 10000000

/-- A text with blanks behind it, up to a width. -/
def padRight (width : Nat) (s : String) : String := s ++ "".pushn ' ' (width - s.length)

/-- A register and its value as a signed number. -/
def registerLine (m : Machine) (r : Register) : String :=
  match m.reg? r.page r.addr with
  | some v =>
    padRight 12 r.name ++ s!" p{r.page}:r" ++ padRight 2 (toString r.addr) ++
      s!" = {v.toInt32.toInt}\n"
  | none => ""

/-- Run a program, and show how it ended and what the registers hold. -/
def runProgram (p : Program) (words : List Word) (maxSteps : Nat) : Outcome :=
  let (result, m) := Machine.run (.ofWords words) maxSteps (.start p.board.pages)
  let registers := String.join (p.registers.byName.map (registerLine m))
  match result with
  | .ok steps => { stdout := s!"halted after {steps} steps at pc {m.pc}\n" ++ registers }
  | .error trap => { stdout := registers, stderr := s!"TRAP: {trap.message}\n" }

/-- The command that runs a script. -/
def run (config : Option Source) (script : Source) (maxSteps : Nat) : Outcome :=
  match readProgram config script with
  | .error e => { failure := some e }
  | .ok p =>
    match p.assemble with
    | .ok words => runProgram p words maxSteps
    | .error e => { failure := some (.other e.message) }

/-! ### The instruction table -/

/-- An instruction of the table. -/
def descriptorLine (d : Descriptor) : String :=
  Radix.hex 2 d.opcode ++ "  " ++ padRight 7 d.mnemonic ++ s!" slots={d.slots} " ++ d.pattern ++ "\n"

/-- The command that prints the instruction table. -/
def isa : Outcome := { stdout := String.join (table.map descriptorLine) }

end PulseAsm.Command
