import PulseAsm.Binary64.Basic

/-!
# Shortest decimals

The decimal with the fewest digits that reads back as a given double, and among
those the nearest. For each count of digits only the two neighbours of the value
on that decimal grid need a test: if any number of the grid reads back, so does
one of these.
-/

namespace PulseAsm.Binary64

/-- A decimal `0.d₁d₂… * 10^point` by its digits `d₁d₂…`, the last of which is not zero. -/
structure Decimal where
  /-- The digits. -/
  digits : List Char
  /-- The place of the point, from the first digit. -/
  point : Int

/-- The decimal `n * 10^exponent`. -/
def Decimal.ofNat (n : Nat) (exponent : Int) : Decimal :=
  let digits := (toString n).toList
  ⟨(digits.reverse.dropWhile (· == '0')).reverse, exponent + digits.length⟩

/-- Whether `10^e` is at most `num / den`. -/
def tenPowLE (e : Int) (num den : Nat) : Bool :=
  Nat.pow 10 e.toNat * den ≤ num * Nat.pow 10 (-e).toNat

/-- The largest exponent of ten that is not above `num / den`, found from below. -/
def decimalExponent (num den : Nat) : Int :=
  let low : Int := ((num.log2 : Int) - (den.log2 : Int) - 1) * 30103 / 100000 - 1
  [low + 1, low + 2, low + 3].foldl (fun best e => if tenPowLE e num den then e else best) low

/-- Whether `digits * 10^exponent` reads back as the magnitude with these bits. -/
def readsBack (bits digits : Nat) (exponent : Int) : Bool :=
  nearestBits? (digits * Nat.pow 10 exponent.toNat) (Nat.pow 10 (-exponent).toNat) == some bits

/-- The grid of `count` digits around `num / den`: the neighbour that reads back,
the nearer one if both do, with the exponent of the grid. -/
def onGrid? (bits num den : Nat) (top : Int) (count : Nat) : Option (Nat × Int) :=
  let exponent := top - count + 1
  let a := num * Nat.pow 10 (-exponent).toNat
  let b := den * Nat.pow 10 exponent.toNat
  let below := a / b
  let rest := a % b
  match readsBack bits below exponent, readsBack bits (below + 1) exponent with
  | true, true =>
    if 2 * rest < b ∨ (2 * rest = b ∧ below % 2 = 0) then some (below, exponent)
    else some (below + 1, exponent)
  | true, false => some (below, exponent)
  | false, true => some (below + 1, exponent)
  | false, false => none

/-- The shortest decimal of a magnitude that is not zero. Seventeen digits always
read back. -/
def shortest (p : Parts) (bits : Nat) : Decimal :=
  let top := decimalExponent p.num p.den
  match (List.range 17).findSome? fun k => onGrid? bits p.num p.den top (k + 1) with
  | some (digits, exponent) => .ofNat digits exponent
  | none => .ofNat 0 0

end PulseAsm.Binary64
