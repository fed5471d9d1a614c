import PulseAsm.Board.Units
import PulseAsm.Envelope
import PulseAsm.Pulse.Params

/-!
# Pulses

A pulse is compiled into one wave per segment. A flat top has three: the first
half of the envelope, a carrier at half the gain, and the second half of the
envelope; the middle clock of an envelope of odd length is left out.
-/

namespace PulseAsm

/-- A compiled pulse. -/
structure Pulse where
  /-- The style. -/
  style : Style
  /-- The parameters. -/
  params : Params
  /-- The segments. -/
  waves : List Wave
  /-- Where each segment starts, in clocks of the generator. -/
  offsets : List Nat
  /-- The whole length, in clocks of the generator. -/
  length : Nat

namespace Pulse

/-- The shortest segment. -/
def minLength : Nat := 3

/-- Segments are shorter than this. -/
def lengthLimit : Nat := 0x10000

/-- What the segments of a pulse share. -/
structure Carrier where
  /-- The frequency word. -/
  freq : Nat
  /-- The phase word. -/
  phase : Nat
  /-- The gain word. -/
  gain : Int
  /-- What is held afterwards. -/
  idle : Option IdleLevel

/-- A segment of a carrier. -/
def Carrier.wave (c : Carrier) (gain : Int) (length env : Nat) (source : OutputSource)
    (mode : Option RunMode) (phaseReset : Option Bool) : Except Error Wave :=
  if minLength ≤ length ∧ length < lengthLimit then
    .ok {
      freq := UInt32.ofNat c.freq
      phase := UInt32.ofNat c.phase
      env := UInt32.ofNat env
      gain := Int32.ofInt gain
      length := UInt32.ofNat length
      conf := UInt16.ofNat (outputConfig (some source) mode c.idle phaseReset) }
  else .error (.outOfRange "pulse length (cycles)" length "[3, 2^16)")

/-- The segments of a pulse and where they start. -/
structure Segments where
  /-- The waves. -/
  waves : List Wave
  /-- Where each starts. -/
  offsets : List Nat

/-- The segment of a constant pulse. -/
def constSegments (c : Carrier) (ps : Params) : Except Error Segments := do
  let w ← c.wave c.gain (ps.length.getD 0) 0 .dds ps.mode ps.phaseReset
  return ⟨[w], [0]⟩

/-- The segment that plays an envelope of `clocks` clocks at clock `addr`. -/
def arbSegments (c : Carrier) (ps : Params) (addr clocks : Nat) : Except Error Segments := do
  let w ← c.wave c.gain clocks addr (ps.source.getD .product) ps.mode ps.phaseReset
  return ⟨[w], [0]⟩

/-- The segments of a flat top whose ramps are the halves of an envelope of
`clocks` clocks at clock `addr`. -/
def flatTopSegments (c : Carrier) (ps : Params) (addr clocks : Nat) : Except Error Segments := do
  let ramp := clocks / 2
  let flat := ps.length.getD 0
  let up ← c.wave c.gain ramp addr .product (some .oneshot) ps.phaseReset
  let level ← c.wave (c.gain.tdiv 2) flat 0 .dds (some .oneshot) none
  let down ← c.wave c.gain ramp (addr + (clocks + 1) / 2) .product (some .oneshot) none
  return ⟨[up, level, down], [0, ramp, ramp + flat]⟩

/-- The address and the length of a named envelope, in clocks. -/
def envelopeClocks (lib : EnvelopeLibrary) (name : String) : Except Error (Nat × Nat) := do
  let e ← lib.get name
  return (e.addr / lib.samplesPerClock, e.length / lib.samplesPerClock)

/-- The segments of a pulse whose envelope, if it names one, is `env`. -/
def segments (style : Style) (c : Carrier) (ps : Params) (env : Option (Nat × Nat)) :
    Except Error Segments :=
  match style, env with
  | .const, _ => constSegments c ps
  | .arb, some (addr, clocks) => arbSegments c ps addr clocks
  | .flatTop, some (addr, clocks) => flatTopSegments c ps addr clocks
  | style, none => .error (.missingParams style.name ["envelope"])

/-- The words that frequency, phase and gain turn into on a generator. -/
def carrier (style : Style) (ps : Params) (ch : Nat) (board : Board) : Except Error Carrier :=
  match ps.freq, ps.phase, ps.gain with
  | some freq, some phase, some gain => do
    let freq ← board.freqToReg ch freq
    let phase ← degToReg phase
    let gain ← board.gainToReg ch gain
    return ⟨freq, phase, gain, ps.idle⟩
  | _, _, _ => .error (.missingParams style.name ["freq"])

/-- Compile a pulse for a generator. -/
def compile (style : Style) (ps : Params) (ch : Nat) (board : Board) (lib : EnvelopeLibrary) :
    Except Error Pulse := do
  ps.validate style
  let c ← carrier style ps ch board
  let env ← match ps.envelope with
    | some name => some <$> envelopeClocks lib name
    | none => pure none
  let segs ← segments style c ps env
  return {
    style
    params := ps
    waves := segs.waves
    offsets := segs.offsets
    length := segs.waves.foldl (fun n w => n + w.length.toNat) 0 }

end Pulse

end PulseAsm
