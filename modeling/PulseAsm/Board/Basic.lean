import PulseAsm.Error

/-!
# Boards

What a processor is connected to: signal generators, readouts and trigger pins,
with their clocks and limits; and the check that the board stays within what
instructions can address.
-/

namespace PulseAsm

/-- How a readout or an output pin is triggered. -/
inductive TriggerPort where
  /-- By a bit of a data port, held high for the width of the trigger. -/
  | dport (port bit : Nat)
  /-- By markers that set and clear a port. -/
  | pulsed (port : Nat)
  deriving DecidableEq

/-- A signal generator. -/
structure Generator where
  /-- The samples that are played in one clock. -/
  samplesPerClock : Nat := 16
  /-- The largest sample. -/
  fullScale : Int := 32766
  /-- The share of full scale that gain one stands for. -/
  scale : Float := 1.0
  /-- The clock that pulse lengths count, in MHz. -/
  fabricClock : Float := 384.0
  /-- The sampling rate of the carrier, in MHz. -/
  ddsRate : Float := 6144.0
  /-- The bits of the carrier's phase accumulator. -/
  ddsBits : Nat := 32

/-- A readout. -/
structure Readout where
  /-- How it is triggered. -/
  trigger : TriggerPort
  /-- The clock that acquisition lengths count, in MHz. -/
  fabricClock : Float := 384.0

/-- A board. -/
structure Board where
  /-- The register pages. -/
  pages : Nat
  /-- The registers of a page. -/
  regsPerPage : Nat
  /-- The clock that times count, in MHz. -/
  timingClock : Float
  /-- The output pins. -/
  pins : List TriggerPort
  /-- The generators. -/
  gens : List Generator
  /-- The readouts. -/
  readouts : List Readout

namespace Board

/-- The board that is assumed when none is described. -/
def standard : Board where
  pages := 8
  regsPerPage := 32
  timingClock := 384.0
  pins := (List.range 4).map fun bit => .dport 0 bit
  gens := List.replicate 7 {}
  readouts := [{ trigger := .dport 0 14 }, { trigger := .dport 0 15 }]

end Board

/-- Check the generator of index `ch` on a board with `pages` register pages. -/
def Generator.validate (pages ch : Nat) (g : Generator) : Except Error Unit :=
  if pages ≤ ch / 2 then
    .error (.outOfRange s!"gen {ch} page" (ch / 2 : Nat) "configured pages")
  else if g.ddsBits < 1 ∨ 32 < g.ddsBits then
    .error (.outOfRange s!"gen {ch} b_dds" g.ddsBits "[1, 32]")
  else if g.samplesPerClock = 0 then
    .error (.outOfRange s!"gen {ch} samps_per_clk" g.samplesPerClock ">= 1")
  else .ok ()

/-- Check a trigger port, which `what` names in a message. -/
def TriggerPort.validate (what : String) : TriggerPort → Except Error Unit
  | .dport _ bit =>
    if 32 ≤ bit then .error (.outOfRange s!"{what} bit" bit "[0, 32)") else .ok ()
  | .pulsed _ => .ok ()

namespace Board

/-- Check a board against what instructions can address: the number of pages, the
registers of a page, then the generators, the pins and the readouts in order. -/
def validate (b : Board) : Except Error Unit := do
  if b.pages < 1 ∨ 8 < b.pages then
    throw (.outOfRange "tproc.pages" b.pages "[1, 8]")
  if b.regsPerPage ≠ 32 then
    throw (.outOfRange "tproc.regs_per_page" b.regsPerPage
      "32 (registers 16..=31 are reserved for pulses and triggers)")
  b.gens.zipIdx.forM fun (g, ch) => g.validate b.pages ch
  b.pins.zipIdx.forM fun (port, k) => port.validate s!"output pin {k}"
  b.readouts.zipIdx.forM fun (r, k) => r.trigger.validate s!"readout {k} trigger"

/-- The generator of an index. -/
def gen (b : Board) (ch : Nat) : Except Error Generator :=
  match b.gens[ch]? with
  | some g => .ok g
  | none => .error (.noSuchChannel .generator ch)

/-- The readout of an index. -/
def readout (b : Board) (ro : Nat) : Except Error Readout :=
  match b.readouts[ro]? with
  | some r => .ok r
  | none => .error (.noSuchChannel .readout ro)

/-- The trigger port of an output pin. -/
def pin (b : Board) (k : Nat) : Except Error TriggerPort :=
  match b.pins[k]? with
  | some port => .ok port
  | none => .error (.noSuchChannel .outputPin k)

end Board

end PulseAsm
