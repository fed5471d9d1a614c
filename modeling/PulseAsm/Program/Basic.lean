import PulseAsm.Binary
import PulseAsm.Instr.Listing
import PulseAsm.Pulse.Basic
import PulseAsm.Register
import PulseAsm.Timeline

/-!
# Programs

A program under construction: the instructions so far, labels, registers,
envelopes, pulses and their waves, and the timeline. Instructions stay in the
order in which they were asked for.

Building is a computation that may fail and keeps what was done before the
failure: `Build α` takes a program to a result or an error, and to the program
as it is then.
-/

namespace PulseAsm

/-- A pulse that can be played. -/
structure StoredPulse where
  /-- The generator. -/
  ch : Nat
  /-- The name. -/
  name : String
  /-- The pulse. -/
  pulse : Pulse
  /-- The wave-table index of each segment. -/
  waves : List Nat

/-- A program under construction. -/
structure Program where
  /-- The board. -/
  board : Board
  /-- The instructions. -/
  lines : List Line := []
  /-- The labels, in the order in which they were bound. -/
  labels : LabelTable := []
  /-- The address of the next instruction. It has 32 bits as long as the instructions
  take fewer than `2^32` slots. -/
  nextAddr : Nat := 0
  /-- The registers. -/
  registers : RegisterFile
  /-- The counters of the open loops, innermost first. -/
  loops : List Register := []
  /-- How many loops have been opened. -/
  loopsOpened : Nat := 0
  /-- The envelopes of each generator. -/
  envelopes : List EnvelopeLibrary
  /-- The pulses, in the order in which they were added. -/
  pulses : List StoredPulse := []
  /-- The wave table. -/
  waves : WaveTable := .empty
  /-- The timestamps. -/
  timeline : Timeline
  /-- How long each readout acquires, once that is declared. -/
  readoutLengths : List (Option Nat)

namespace Program

/-- The registers of a generator, to be reserved. -/
def pulseRequests (ch : Nat) : List RegRequest :=
  let regs := PulseRegs.ofGen ch
  regs.named.map fun (name, addr, kind) =>
    { page := regs.page, addr := some addr, name := some s!"g{ch}_{name}", kind, owner := some ch }

/-- The registers of the trigger unit, to be reserved. -/
def triggerRequests : List RegRequest :=
  [{ page := triggerPage, addr := some triggerTimeReg, name := some "trig_t" },
   { page := triggerPage, addr := some triggerOutReg, name := some "trig_out" }]

/-- The registers that are reserved on a board. -/
def reserved (board : Board) : List RegRequest :=
  (List.range board.gens.length).flatMap pulseRequests ++ triggerRequests

/-- Hand out registers one after the other. -/
def allocateAll (f : RegisterFile) : List RegRequest → Except Error RegisterFile
  | [] => .ok f
  | r :: rs => do
    let (_, f) ← f.allocate r
    allocateAll f rs

/-- An empty program for a board that passes its check. -/
def ofBoard (board : Board) : Except Error Program := do
  board.validate
  let registers ← allocateAll (.empty board.pages board.regsPerPage) (reserved board)
  return {
    board
    registers
    envelopes := board.gens.zipIdx.map fun (g, ch) => .ofGen ch g
    timeline := .zero board.gens.length board.readouts.length
    readoutLengths := board.readouts.map fun _ => none }

/-- The envelopes of a generator. -/
def library (p : Program) (ch : Nat) : Except Error EnvelopeLibrary :=
  match p.envelopes[ch]? with
  | some lib => .ok lib
  | none => .error (.noSuchChannel .generator ch)

/-- The pulse of a generator with a name. -/
def findPulse? (p : Program) (ch : Nat) (name : String) : Option StoredPulse :=
  p.pulses.find? fun e => e.ch = ch ∧ e.name = name

/-- The words of the program. -/
def assemble (p : Program) : Except Error (List Word) := PulseAsm.assemble p.lines p.labels

/-- The listing of the program. -/
def listing (p : Program) : String := PulseAsm.listing p.lines p.labels

/-- The program with an instruction of `slots` slots appended. -/
def push (p : Program) (i : Instr) (slots : Nat) (comment : Option String) : Program :=
  { p with
    lines := p.lines ++ [⟨i, p.nextAddr, p.lines.length, comment⟩]
    nextAddr := p.nextAddr + slots }

end Program

/-- A building step: a result or an error, and the program as it is then. -/
abbrev Build := ExceptT Error (StateM Program)

/-- The outcome of a building step on a program. -/
def Build.apply (b : Build α) (p : Program) : Except Error α × Program :=
  StateT.run (ExceptT.run b) p

end PulseAsm
