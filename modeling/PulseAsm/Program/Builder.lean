import PulseAsm.Increasing
import PulseAsm.Program.Basic
import PulseAsm.Text.UpperCase

/-!
# Building programs

The steps that a program is built by: single instructions, register loads,
counted loops, pulses and triggers at their times, and the ordering of channels
in time.
-/

namespace PulseAsm.Build

open Text

/-! ### Instructions and labels -/

/-- Append an instruction with a remark. The mnemonic and the number of operands
are checked; what the operands are is checked when the program is assembled. -/
def emit (i : Instr) (comment : Option String) : Build Unit :=
  match Descriptor.ofMnemonic? i.mnemonic with
  | none => throw (.unknownMnemonic i.mnemonic)
  | some d =>
    if i.operands.length = d.arity then modify fun p => p.push i d.slots comment
    else throw (.operandCount d.mnemonic d.arity i.operands.length)

/-- Append an instruction that leaves the flags alone. -/
def append (mnemonic : String) (operands : List Operand) (comment : Option String) : Build Unit :=
  emit { mnemonic, operands } comment

/-- Bind a name to the address of the next instruction. -/
def label (name : String) : Build Unit := do
  let p ← get
  match p.labels.lookup name with
  | some _ => throw (.duplicateLabel name)
  | none => set { p with labels := p.labels ++ [(name, p.nextAddr)] }

/-! ### Registers -/

/-- The instruction of a step of loading a register. -/
def loadInstr (page reg : Nat) : LoadStep → Instr
  | .write v => { mnemonic := "regwi", operands := [.value page, .value reg, .value v] }
  | .shiftLeft count =>
    { mnemonic := "bitwi"
      operands := [.value page, .value reg, .value reg, .op .shl, .value count] }
  | .add v =>
    { mnemonic := "mathi"
      operands := [.value page, .value reg, .value reg, .op .add, .value v] }

/-- Load a value into a register, in as many steps as it takes. The result is
their number. -/
def load (page reg : Nat) (v : Int) : Build Nat := do
  let steps ← loadSteps v
  let comment := if steps.length > 1 then some s!"${reg} = {v}" else none
  steps.forM fun s => emit (loadInstr page reg s) comment
  return steps.length

/-- Hand out a register, and load the value it starts with. -/
def newReg (r : RegRequest) : Build Register := do
  let p ← get
  let (reg, registers) ← p.registers.allocate r
  set { p with registers }
  match reg.init with
  | some v => discard (load reg.page reg.addr v)
  | none => pure ()
  return reg

/-! ### Loops -/

/-- Open a loop of `n` rounds. The loop's label is its name in capitals. -/
def openLoop (n : Nat) (name : Option String) : Build Register := do
  let name := name.getD s!"loop_{(← get).loopsOpened}"
  let reg ← newReg { page := 0, name := some name, init := some n }
  label (upperCase name)
  modify fun p => { p with loopsOpened := p.loopsOpened + 1, loops := reg :: p.loops }
  return reg

/-- Close the innermost loop: count down, and branch back unless that gave zero. -/
def closeLoop : Build Unit := do
  let p ← get
  match p.loops with
  | [] => throw .unbalancedLoop
  | reg :: rest =>
    set { p with loops := rest }
    emit
      { mnemonic := "mathi"
        operands := [.value reg.page, .value reg.addr, .value reg.addr, .op .sub, .value 1]
        updateFlags := true }
      (some s!"{reg.name} -= 1")
    append "jnz" [.label (upperCase reg.name)] none

/-! ### Envelopes and pulses -/

/-- Add an envelope to the table of a generator. -/
def addEnvelope (ch : Nat) (name : String) (idata qdata : Option (List Float)) : Build Unit := do
  let p ← get
  let lib ← p.library ch
  let (_, lib) ← lib.add name idata qdata
  set { p with envelopes := p.envelopes.set ch lib }

/-- The largest sample of a shape: a given one, or the scaled full range. -/
def shapeTop (g : Generator) (top : Option Float) : Float :=
  top.getD (Binary64.ofInt g.fullScale * g.scale)

/-- Add a Gaussian that peaks in the middle; `sigma` and `length` are in clocks. An
odd length is rounded down if `evenLength`, so that the halves can serve as ramps. -/
def addGauss (ch : Nat) (name : String) (sigma : Float) (length : Nat) (top : Option Float)
    (evenLength : Bool) : Build Unit := do
  let g ← (← get).board.gen ch
  let clocks := if evenLength then length / 2 * 2 else length
  let samples := clocks * g.samplesPerClock
  let shape := Shape.gauss (Binary64.ofInt samples / 2.0 - 0.5)
    (sigma * Binary64.ofInt g.samplesPerClock) samples (shapeTop g top)
  addEnvelope ch name (some shape) none

/-- Add a triangle of `length` clocks. -/
def addTriangle (ch : Nat) (name : String) (length : Nat) (top : Option Float) : Build Unit := do
  let g ← (← get).board.gen ch
  addEnvelope ch name (some (Shape.triangle (length * g.samplesPerClock) (shapeTop g top))) none

/-- Add waves to the table, named after their pulse and numbered from `k`. The
result is their indices. -/
def addWaves (ch : Nat) (name : String) : Nat → List Wave → Build (List Nat)
  | _, [] => return []
  | k, w :: ws => do
    let p ← get
    let (index, waves) ← p.waves.add s!"g{ch}_{name}_w{k}" w
    set { p with waves }
    let rest ← addWaves ch name (k + 1) ws
    return index :: rest

/-- Compile a pulse for a generator and store it, its waves in the wave table. -/
def addPulse (ch : Nat) (name : String) (style : Style) (params : Params) : Build Unit := do
  let p ← get
  let lib ← p.library ch
  match p.findPulse? ch name with
  | some _ => throw (.duplicateName .pulse ch name)
  | none =>
    let pulse ← Pulse.compile style params ch p.board lib
    let waves ← addWaves ch name 0 pulse.waves
    modify fun p => { p with pulses := p.pulses ++ [⟨ch, name, pulse, waves⟩] }

/-! ### Outputs in time -/

/-- Reserve a duration on a channel. The result is the time of the output. -/
def schedule (ch : Channel) (time : Time) (duration : Nat) : Build Nat := do
  let p ← get
  let (t, timeline) ← p.timeline.schedule ch time duration
  set { p with timeline }
  return t

/-- A time as a number that an instruction can be asked to hold. -/
def timeValue (what : String) (t : Nat) : Except Error Int :=
  if t < 1 <<< 63 then .ok t else .error (.outOfRange what t "signed 64-bit time")

/-- Emit the segments of a pulse that starts at `start`; they are given by their
wave-table indices and offsets, and numbered from `k`. -/
def playSegments (ch : Nat) (name : String) (start : Nat) : Nat → List (Nat × Nat) → Build Unit
  | _, [] => return
  | k, (index, offset) :: rest => do
    let regs := PulseRegs.ofGen ch
    let t ← addTime start (← (← get).board.genCycles ch offset)
    discard (load regs.page regs.time (← timeValue "pulse time" t))
    append "wseti" [.value ch, .value regs.page, .value regs.time, .value index]
      (some s!"g{ch} {name} w{k} @t = {t}")
    playSegments ch name start (k + 1) rest

/-- Play a stored pulse. The result is the time at which it starts. -/
def play (ch : Nat) (name : String) (time : Time) : Build Nat := do
  let p ← get
  let _ ← p.library ch
  match p.findPulse? ch name with
  | none => throw (.unknownName .pulse ch name)
  | some e =>
    let duration ← p.board.genCycles ch e.pulse.length
    let start ← schedule (.gen ch) time duration
    playSegments ch name start 0 (e.waves.zip e.pulse.offsets)
    return start

/-- Declare how long a readout acquires at each trigger, in its clocks. -/
def declareReadout (ro length : Nat) : Build Unit := do
  let p ← get
  let _ ← p.board.readout ro
  set { p with readoutLengths := p.readoutLengths.set ro (some length) }

/-- The declared length of a readout. -/
def declaredLength (ro : Nat) : Build Nat := do
  match ((← get).readoutLengths[ro]?).join with
  | some length => return length
  | none => throw (.noSuchChannel .declaredReadout ro)

/-- Reserve a readout for its acquisition at time `t`. The result is its trigger port. -/
def triggerReadout (t ro : Nat) : Build TriggerPort := do
  let board := (← get).board
  let r ← board.readout ro
  let length ← declaredLength ro
  let duration ← board.readoutCycles ro length
  discard (schedule (.readout ro) (.fixed t) duration)
  return r.trigger

/-- Masks of data ports in increasing order, with a bit of a port set. -/
def setMask (port bit : Nat) : List (Nat × Nat) → List (Nat × Nat)
  | [] => [(port, 1 <<< bit)]
  | (q, mask) :: rest =>
    if port < q then (port, 1 <<< bit) :: (q, mask) :: rest
    else if port = q then (q, mask ||| 1 <<< bit) :: rest
    else (q, mask) :: setMask port bit rest

/-- The masks of the data ports among trigger ports, in increasing order. -/
def portMasks (ports : List TriggerPort) : List (Nat × Nat) :=
  ports.foldl (fun masks port =>
    match port with
    | .dport port bit => setMask port bit masks
    | .pulsed _ => masks) []

/-- The number of a pulsed port. -/
def pulsedNumber? : TriggerPort → Option Nat
  | .dport .. => none
  | .pulsed port => some port

/-- The pulsed ports among trigger ports, in increasing order. -/
def pulsedPorts (ports : List TriggerPort) : List Nat := increasing (ports.filterMap pulsedNumber?)

/-- Write masks to data ports at a time. -/
def writePorts (t : Nat) (masks : List (Nat × Nat)) : Build Unit := do
  discard (load triggerPage triggerTimeReg t)
  masks.forM fun (port, mask) =>
    append "dporti" [.value port, .value triggerPage, .value triggerTimeReg, .value mask]
      (some s!"port {port} = {Radix.hexAtLeast 4 mask} @t = {t}")

/-- Set and clear a pulsed port. -/
def pulsePort (t width port : Nat) : Build Unit := do
  append "trigi" [.value port, .value 1, .value t] none
  append "trigi" [.value port, .value 0, .value (t + width : Nat)] none

/-- Trigger ports at `t` for `width` cycles: the bits of data ports are set together
and cleared together, and then pulsed ports follow one by one. -/
def firePorts (ports : List TriggerPort) (t width : Nat) : Build Unit := do
  let masks := portMasks ports
  unless masks.isEmpty do
    writePorts t masks
    writePorts (t + width) (masks.map fun (port, _) => (port, 0))
  (pulsedPorts ports).forM (pulsePort t width)

/-- Trigger readouts and output pins at `t` for `width` cycles. -/
def trigger (ros pins : List Nat) (t width : Nat) : Build Unit := do
  let readoutPorts ← ros.mapM (triggerReadout t)
  let pinPorts ← pins.mapM fun k => do liftM ((← get).board.pin k)
  firePorts (readoutPorts ++ pinPorts) t width

/-- Bring channels to the latest of their timestamps. -/
def align (chs : List Channel) : Build Unit := do
  let p ← get
  set { p with timeline := ← p.timeline.align chs }

/-- Put all channels back at time zero. -/
def resetTimeline : Build Unit := modify fun p => { p with timeline := p.timeline.reset }

/-- Move the time reference `t` cycles past every channel. -/
def syncAll (t : Nat) : Build Unit := do
  let total ← addTime ((← get).timeline.horizon true true) t
  if total > 0 then
    append "synci" [.value (← timeValue "sync time" total)] none
  resetTimeline

/-- Wait until a time. -/
def wait (t : Nat) : Build Unit := append "waiti" [.value 0, .value t] none

/-- Wait until `t` cycles past the end of every readout. -/
def waitAll (t : Nat) : Build Unit := do
  let total ← addTime ((← get).timeline.horizon false true) t
  append "waiti" [.value 0, .value (← timeValue "wait time" total)] none

/-- End the program. -/
def finish : Build Unit := append "end" [] none

end PulseAsm.Build
