/-!
# Numerals in a fixed base

Hexadecimal and binary numerals of a fixed width, as memory images and listings
use them, and their reading back. `fixed base width n` keeps the `width` lowest
digits of `n`, so a word of `4 * width` bits is written without loss in base 16.
-/

namespace PulseAsm.Text.Radix

/-- The digit of value `d` for `d < 16`; letters are in lower case. -/
def digitChar (d : Nat) : Char :=
  if d < 10 then Char.ofNat (48 + d) else Char.ofNat (87 + d)

/-- The value of a digit of base 16 or below; letters of either case are read. -/
def digitValue? (c : Char) : Option Nat :=
  if '0' ≤ c ∧ c ≤ '9' then some (c.toNat - 48)
  else if 'a' ≤ c ∧ c ≤ 'f' then some (c.toNat - 87)
  else if 'A' ≤ c ∧ c ≤ 'F' then some (c.toNat - 55)
  else none

/-- The `width` lowest digits of `n`, most significant first. -/
def fixed (base : Nat) : Nat → Nat → List Char
  | 0, _ => []
  | width + 1, n => fixed base width (n / base) ++ [digitChar (n % base)]

@[simp] theorem length_fixed (base width n : Nat) : (fixed base width n).length = width := by
  induction width generalizing n with
  | zero => rfl
  | succ width ih => simp [fixed, ih]

/-- How many digits `n` needs in base 16; one for zero. -/
def hexLength (n : Nat) : Nat := n.log2 / 4 + 1

/-- The number that a non-empty list of digits of the base denotes. -/
def ofDigits? (base : Nat) (cs : List Char) : Option Nat :=
  if cs.isEmpty then none
  else cs.foldlM (fun n c => (digitValue? c).bind fun d =>
    if d < base then some (base * n + d) else none) 0

/-- `0x` and exactly `width` digits. -/
def hex (width n : Nat) : String := "0x" ++ String.ofList (fixed 16 width n)

/-- `0x` and as many digits as `n` needs, at least `width` of them. -/
def hexAtLeast (width n : Nat) : String := hex (max width (hexLength n)) n

/-- `0b` and exactly `width` digits. -/
def bin (width n : Nat) : String := "0b" ++ String.ofList (fixed 2 width n)

/-- The number behind `0x`. -/
def ofHex? (s : String) : Option Nat :=
  match s.toList with
  | '0' :: 'x' :: digits => ofDigits? 16 digits
  | _ => none

/-- The number behind `0b`. -/
def ofBin? (s : String) : Option Nat :=
  match s.toList with
  | '0' :: 'b' :: digits => ofDigits? 2 digits
  | _ => none

end PulseAsm.Text.Radix
