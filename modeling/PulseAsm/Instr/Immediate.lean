import PulseAsm.Error

/-!
# Immediates

An instruction holds a signed immediate in 31 bits. Numbers from `-2^31` up to
`2^31` are accepted and negative ones folded by adding `2^31`; the machine reads
the field back as a 31-bit two's complement number (`signExtend31`), so the
fold is exact from `-2^30` up to `2^30`. A wider value reaches a register in
steps: its upper bits are written, shifted into place, and the rest is added.
-/

namespace PulseAsm

/-- Twice the weight of an immediate's sign bit. -/
def immLimit : Int := 0x80000000

/-- Values below this are loaded by a single write. -/
def directLimit : Int := 0x40000000

/-- Values from this on do not fit a register. -/
def registerLimit : Int := 0x100000000

/-- The 31-bit field of a signed immediate. -/
def foldImm (field : String) (v : Int) : Except Error Nat :=
  if -immLimit ≤ v ∧ v < immLimit then
    .ok (if v < 0 then immLimit + v else v).toNat
  else .error (.outOfRange field v "signed 31-bit: [-2^31, 2^31)")

/-- The signed number that the low 31 bits of an immediate stand for. -/
def signExtend31 (v : Int) : Int :=
  let low := v % immLimit
  if low ≥ directLimit then low - immLimit else low

/-- A step of loading a register. -/
inductive LoadStep where
  /-- Write an immediate. -/
  | write (v : Int)
  /-- Shift to the left. -/
  | shiftLeft (count : Nat)
  /-- Add an immediate. -/
  | add (v : Int)
  deriving DecidableEq

/-- The steps that load a value into a register. -/
def loadSteps (v : Int) : Except Error (List LoadStep) :=
  if -immLimit ≤ v ∧ v < directLimit then .ok [.write v]
  else if directLimit ≤ v ∧ v < registerLimit then
    .ok (.write (v / 4) :: .shiftLeft 2 :: if v % 4 = 0 then [] else [.add (v % 4)])
  else .error (.outOfRange "register value" v "[-2^31, 2^32)")

end PulseAsm
