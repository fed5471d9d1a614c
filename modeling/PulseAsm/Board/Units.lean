import PulseAsm.Binary64.Basic
import PulseAsm.Board.Basic

/-!
# Units

Physical units and register values: frequencies in MHz, phases in degrees, gains
as a share of full scale, times in microseconds. A frequency or a phase wraps as
the phase accumulator does; a gain or a time that does not fit is refused.
-/

namespace PulseAsm

open Binary64

/-- The steps of a generator's accumulator in a turn, as a double. The width is
taken as a signed 32-bit number. -/
def Generator.turn (g : Generator) : Float := twoPow (Int.bmod g.ddsBits (1 <<< 32))

/-- The modulus of a generator's accumulator. The width is taken modulo 64. -/
def Generator.modulus (g : Generator) : Int := (1 <<< (g.ddsBits % 64) : Nat)

namespace Board

/-- The frequency word of a generator: the nearest step of the accumulator. -/
def freqToReg (b : Board) (ch : Nat) (mhz : Float) : Except Error Nat := do
  let g ← b.gen ch
  match roundIn? int64Min int64Max (mhz / g.ddsRate * g.turn) with
  | some steps => return (steps % g.modulus).toNat % (1 <<< 32)
  | none => throw (.outOfRange "freq" (toInt64 mhz) "finite frequency")

/-- The frequency that a word of a generator stands for. -/
def regToFreq (b : Board) (ch : Nat) (reg : Nat) : Except Error Float := do
  let g ← b.gen ch
  return ofInt reg * g.ddsRate / g.turn

/-- The gain word of a generator, cut towards zero. -/
def gainToReg (b : Board) (ch : Nat) (gain : Float) : Except Error Int := do
  let g ← b.gen ch
  match truncIn? (-0x80000000) 0x7FFFFFFF (gain * ofInt g.fullScale * g.scale) with
  | some reg =>
    if reg.natAbs ≤ g.fullScale.natAbs then return reg
    else throw (.outOfRange "gain" reg s!"|gain| <= {g.fullScale}")
  | none => throw (.outOfRange "gain" (toInt64 gain) "32-bit gain register")

/-- The timing cycles of a time in microseconds, cut towards zero. -/
def usToCycles (b : Board) (us : Float) : Except Error Nat :=
  match truncIn? 0 0xFFFFFFFF (us * b.timingClock) with
  | some n => .ok n.toNat
  | none => .error (.outOfRange "time (us)" (toInt64 us) "non-negative 32-bit cycle count")

/-- The time of timing cycles in microseconds. -/
def cyclesToUs (b : Board) (cycles : Nat) : Float := ofInt cycles / b.timingClock

/-- Cycles of a clock of `mhz` as timing cycles, rounded down. -/
def timingCycles (b : Board) (mhz : Float) (cycles : Nat) : Nat :=
  (saturate 0 0xFFFFFFFF (ofInt cycles * b.timingClock / mhz)).toNat

/-- Cycles of a generator as timing cycles. -/
def genCycles (b : Board) (ch cycles : Nat) : Except Error Nat := do
  let g ← b.gen ch
  return b.timingCycles g.fabricClock cycles

/-- Cycles of a readout as timing cycles. -/
def readoutCycles (b : Board) (ro cycles : Nat) : Except Error Nat := do
  let r ← b.readout ro
  return b.timingCycles r.fabricClock cycles

end Board

/-- The phase word of an angle, rounded down; angles beyond a full turn wrap. -/
def degToReg (deg : Float) : Except Error Nat :=
  match floorIn? int64Min int64Max (deg * twoPow 32 / 360.0) with
  | some n => .ok (n % 0x100000000).toNat
  | none => .error (.outOfRange "phase" (toInt64 deg) "finite angle")

/-- The angle that a phase word stands for. -/
def regToDeg (reg : Nat) : Float := ofInt reg * 360.0 / twoPow 32

end PulseAsm
