/-!
# Operators

The operators of the arithmetic unit: their symbols, and their codes within the
code space of the field that holds them. Codes of different spaces overlap, so a
code alone does not name an operator; `Operator.ofCode?` takes the space too.
-/

namespace PulseAsm

/-- The code space that an operator field draws from. -/
inductive OpSpace where
  /-- Sums and products. -/
  | arith
  /-- Bitwise operators and shifts. -/
  | bitwise
  /-- Comparisons. -/
  | compare
  /-- Halves of a word. -/
  | half
  deriving DecidableEq

/-- An operator of the arithmetic unit. -/
inductive Operator where
  /-- Greater than. -/
  | gt
  /-- Greater than or equal. -/
  | ge
  /-- Less than. -/
  | lt
  /-- Less than or equal. -/
  | le
  /-- Equal. -/
  | eq
  /-- Not equal. -/
  | ne
  /-- Sum. -/
  | add
  /-- Difference. -/
  | sub
  /-- Product. -/
  | mul
  /-- Conjunction. -/
  | and
  /-- Disjunction. -/
  | or
  /-- Exclusive disjunction. -/
  | xor
  /-- Complement of the second operand. -/
  | not
  /-- Shift to the left. -/
  | shl
  /-- Shift to the right. -/
  | shr
  /-- The upper half. -/
  | upper
  /-- The lower half. -/
  | lower
  deriving DecidableEq

namespace Operator

/-- Every operator. -/
def all : List Operator :=
  [gt, ge, lt, le, eq, ne, add, sub, mul, and, or, xor, not, shl, shr, upper, lower]

/-- The symbol in assembly text; no two operators share one. -/
def symbol : Operator → String
  | gt => ">" | ge => ">=" | lt => "<" | le => "<=" | eq => "==" | ne => "!="
  | add => "+" | sub => "-" | mul => "*"
  | and => "&" | or => "|" | xor => "^" | not => "~" | shl => "<<" | shr => ">>"
  | upper => "upper" | lower => "lower"

/-- The name in a report. -/
def name : Operator → String
  | gt => "Gt" | ge => "Ge" | lt => "Lt" | le => "Le" | eq => "Eq" | ne => "Ne"
  | add => "Add" | sub => "Sub" | mul => "Mul"
  | and => "And" | or => "Or" | xor => "Xor" | not => "Not" | shl => "Shl" | shr => "Shr"
  | upper => "Upper" | lower => "Lower"

/-- The code space. -/
def space : Operator → OpSpace
  | gt | ge | lt | le | eq | ne => .compare
  | add | sub | mul => .arith
  | and | or | xor | not | shl | shr => .bitwise
  | upper | lower => .half

/-- The code within the space; it fits in four bits. -/
def code : Operator → Nat
  | gt => 0 | ge => 1 | lt => 2 | le => 3 | eq => 4 | ne => 5
  | add => 8 | sub => 9 | mul => 10
  | and => 0 | or => 1 | xor => 2 | not => 3 | shl => 4 | shr => 5
  | upper => 10 | lower => 5

/-- The operator with a symbol. -/
def ofSymbol? (s : String) : Option Operator := all.find? (·.symbol = s)

/-- The operator with a name. -/
def ofName? (s : String) : Option Operator := all.find? (·.name = s)

/-- The operator with a code in a space. -/
def ofCode? (s : OpSpace) (c : Nat) : Option Operator :=
  all.find? fun op => op.space = s ∧ op.code = c

end Operator

end PulseAsm
