/-!
# Exact values of doubles

A finite double is `± m * 2^q` for natural `m` and integer `q`. From these parts
the roundings to an integer are computed exactly, with no step in floating
point; and a ratio of naturals is rounded to the nearest double.
-/

namespace PulseAsm.Binary64

/-- A finite double as a sign, a mantissa and a binary exponent. -/
structure Parts where
  /-- Whether the sign bit is set. -/
  negative : Bool
  /-- The mantissa, below `2^53`. -/
  mantissa : Nat
  /-- The exponent of two, at least `-1074`. -/
  exponent : Int
  deriving DecidableEq

/-- The parts of a double; an infinity or a NaN has none. -/
def parts? (x : Float) : Option Parts :=
  let bits : Nat := x.toBits.toNat
  let negative := bits >>> 63 == 1
  let field : Nat := (bits >>> 52) % (1 <<< 11)
  let fraction : Nat := bits % (1 <<< 52)
  if field = 2047 then none
  else if field = 0 then some ⟨negative, fraction, -1074⟩
  else some ⟨negative, fraction + (1 <<< 52), (field : Int) - 1075⟩

namespace Parts

/-- The numerator of the magnitude as a fraction. -/
def num (p : Parts) : Nat := p.mantissa <<< p.exponent.toNat

/-- The denominator of the magnitude as a fraction. -/
def den (p : Parts) : Nat := 1 <<< (-p.exponent).toNat

/-- A magnitude with the sign of the parts. -/
def signed (p : Parts) (n : Nat) : Int := if p.negative then -n else n

/-- The integer that is left when the fraction is dropped. -/
def trunc (p : Parts) : Int := p.signed (p.num / p.den)

/-- The nearest integer; a half goes away from zero. -/
def round (p : Parts) : Int := p.signed ((2 * p.num + p.den) / (2 * p.den))

/-- The largest integer that is not above. -/
def floor (p : Parts) : Int := p.signed p.num / p.den

/-- The smallest integer that is not below. -/
def ceil (p : Parts) : Int := -(-(p.signed p.num) / p.den)

end Parts

/-- The double truncated to an integer in a range, if it is there. -/
def truncIn? (lo hi : Int) (x : Float) : Option Int :=
  ((parts? x).map (·.trunc)).filter fun n => lo ≤ n ∧ n ≤ hi

/-- The double rounded to an integer in a range, a half away from zero, if it is there. -/
def roundIn? (lo hi : Int) (x : Float) : Option Int :=
  ((parts? x).map (·.round)).filter fun n => lo ≤ n ∧ n ≤ hi

/-- The double rounded down to an integer in a range, if it is there. -/
def floorIn? (lo hi : Int) (x : Float) : Option Int :=
  ((parts? x).map (·.floor)).filter fun n => lo ≤ n ∧ n ≤ hi

/-- An integer brought into a range. -/
def clamp (lo hi n : Int) : Int := max lo (min hi n)

/-- The double truncated to an integer and brought into a range; a NaN counts as zero. -/
def saturate (lo hi : Int) (x : Float) : Int :=
  match parts? x with
  | some p => clamp lo hi p.trunc
  | none => if x.isNaN then clamp lo hi 0 else if x > 0 then hi else lo

/-- The double rounded up to an integer and brought into a range; a NaN counts as zero. -/
def saturateUp (lo hi : Int) (x : Float) : Int :=
  match parts? x with
  | some p => clamp lo hi p.ceil
  | none => saturate lo hi x

/-- The least 64-bit signed integer. -/
def int64Min : Int := -0x8000000000000000

/-- The largest 64-bit signed integer. -/
def int64Max : Int := 0x7FFFFFFFFFFFFFFF

/-- The double as a 64-bit signed integer: truncated and brought into range. -/
def toInt64 (x : Float) : Int := saturate int64Min int64Max x

/-- `num / den` rounded to the nearest natural; a half goes to the even neighbour. -/
def divEven (num den : Nat) : Nat :=
  let n := num / den
  let rest := 2 * (num % den)
  if rest < den ∨ (rest = den ∧ n % 2 = 0) then n else n + 1

/-- The numerator and denominator of `num / den / 2^q`. -/
def scaled (num den : Nat) (q : Int) : Nat × Nat :=
  (num <<< (-q).toNat, den <<< q.toNat)

/-- The bits of the double nearest to `num / den`, a tie going to the even
mantissa; none if it lies beyond the largest double. The exponent is the least
one for which the mantissa has at most 53 bits. -/
def nearestBits? (num den : Nat) : Option Nat :=
  if num = 0 then some 0
  else
    let guess : Int := max (-1074) ((num.log2 : Int) - (den.log2 : Int) - 53)
    let (a, b) := scaled num den guess
    let q := if a / b < 1 <<< 53 then guess else guess + 1
    let (a, b) := scaled num den q
    let mantissa := divEven a b
    let bits := if mantissa < 1 <<< 52 then mantissa else ((q + 1074).toNat <<< 52) + mantissa
    if bits < 2047 <<< 52 then some bits else none

/-- A double from its sign and the bits of its magnitude. -/
def ofMagnitude (negative : Bool) (bits : Nat) : Float :=
  Float.ofBits (UInt64.ofNat (if negative then bits + (1 <<< 63) else bits))

/-- The double nearest to a decimal `± digits * 10^exponent`; none if it lies
beyond the largest double. Exponents that leave no doubt are cut off first. -/
def ofDecimal? (negative : Bool) (digits : Nat) (exponent : Int) : Option Float :=
  let magnitude : Int := exponent + digits.log2 / 3
  if digits = 0 ∨ magnitude < -400 then some (ofMagnitude negative 0)
  else if exponent > 400 then none
  else (nearestBits? (digits * Nat.pow 10 exponent.toNat) (Nat.pow 10 (-exponent).toNat)).map
    (ofMagnitude negative)

/-- The double nearest to an integer. -/
def ofInt (n : Int) : Float :=
  match ofDecimal? (n < 0) n.natAbs 0 with
  | some x => x
  | none => if n < 0 then -1.0 / 0.0 else 1.0 / 0.0

/-- A power of two with a natural exponent. -/
def twoPowNat (n : Nat) : Float :=
  if n < 1024 then ofMagnitude false ((n + 1023) <<< 52) else 1.0 / 0.0

/-- A power of two. One that is too large is infinite, and its inverse zero. -/
def twoPow (n : Int) : Float :=
  if 0 ≤ n then twoPowNat n.toNat else 1.0 / twoPowNat n.natAbs

end PulseAsm.Binary64
