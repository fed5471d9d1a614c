import PulseAsm.Binary64.Shortest
import PulseAsm.Json.Basic
import PulseAsm.Text.Radix

/-!
# Writing JSON

A value as text, on one line or with two spaces of indentation per level.
Doubles are written with the fewest digits that read back.
-/

namespace PulseAsm.Json

open Text

/-! ### Numbers -/

/-- A decimal in plain notation, with at least one digit on both sides of the point. -/
def plainDecimal (digits : List Char) (point : Int) : String :=
  if point ≤ 0 then
    "0." ++ "".pushn '0' (-point).toNat ++ String.ofList digits
  else
    let n := point.toNat
    let whole := digits.take n ++ List.replicate (n - digits.length) '0'
    let fraction := digits.drop n
    String.ofList whole ++ "." ++ (if fraction.isEmpty then "0" else String.ofList fraction)

/-- A decimal with one digit before the point and a signed exponent. -/
def scientificDecimal (digits : List Char) (point : Int) : String :=
  let exponent := point - 1
  let mark := if exponent < 0 then "e-" else "e+"
  let fraction := digits.drop 1
  String.ofList (digits.take 1) ++
    (if fraction.isEmpty then "" else "." ++ String.ofList fraction) ++
    mark ++ toString exponent.natAbs

/-- A decimal in plain notation from `10^-5` up to `10^16`, and with an exponent beyond. -/
def decimalText (digits : List Char) (point : Int) : String :=
  if -5 < point ∧ point ≤ 16 then plainDecimal digits point
  else scientificDecimal digits point

/-- A double as text; an infinity or a NaN has none and is written as null. -/
def floatText (x : Float) : String :=
  match Binary64.parts? x with
  | none => "null"
  | some p =>
    let magnitude :=
      if p.mantissa = 0 then "0.0"
      else
        let d := Binary64.shortest p (x.toBits.toNat % (1 <<< 63))
        decimalText d.digits d.point
    if p.negative then "-" ++ magnitude else magnitude

/-! ### Strings -/

/-- A character as it stands in a string: quote, backslash and control characters
are escaped. -/
def stringChar (c : Char) : List Char :=
  if c = '"' then ['\\', '"']
  else if c = '\\' then ['\\', '\\']
  else if c = '\x08' then ['\\', 'b']
  else if c = '\x0c' then ['\\', 'f']
  else if c = '\n' then ['\\', 'n']
  else if c = '\r' then ['\\', 'r']
  else if c = '\t' then ['\\', 't']
  else if c.toNat < 0x20 then '\\' :: 'u' :: Radix.fixed 16 4 c.toNat
  else [c]

/-- A string with its quotes. -/
def stringText (s : String) : String :=
  "\"" ++ String.ofList (s.toList.flatMap stringChar) ++ "\""

/-! ### Values -/

/-- A value that is neither a list nor an object, as text. -/
def scalarText : Json → String
  | null => "null"
  | bool true => "true"
  | bool false => "false"
  | int n => toString n
  | float x => floatText x
  | str s => stringText s
  | arr _ => "[]"
  | obj _ => "\x7b\x7d"

mutual

/-- A value on one line, without blanks. -/
def compact : Json → String
  | arr items => "[" ++ ",".intercalate (compactItems items) ++ "]"
  | obj members => "\x7b" ++ ",".intercalate (compactMembers members) ++ "\x7d"
  | v => scalarText v

/-- Items on one line. -/
def compactItems : List Json → List String
  | [] => []
  | v :: vs => compact v :: compactItems vs

/-- Members on one line. -/
def compactMembers : List (String × Json) → List String
  | [] => []
  | (name, v) :: rest => (stringText name ++ ":" ++ compact v) :: compactMembers rest

end

/-- The line break and indentation of a level. -/
def lineBreak (level : Nat) : String := "\n" ++ "".pushn ' ' (2 * level)

/-- Written items between marks, each on a line of its own. -/
def block (level : Nat) (openMark closeMark : String) (items : List String) : String :=
  if items.isEmpty then openMark ++ closeMark
  else
    openMark ++ lineBreak (level + 1) ++ ("," ++ lineBreak (level + 1)).intercalate items ++
      lineBreak level ++ closeMark

mutual

/-- A value whose items and members stand on lines of their own. -/
def pretty (level : Nat) : Json → String
  | arr items => block level "[" "]" (prettyItems (level + 1) items)
  | obj members => block level "\x7b" "\x7d" (prettyMembers (level + 1) members)
  | v => scalarText v

/-- Items, each to be put on its own line. -/
def prettyItems (level : Nat) : List Json → List String
  | [] => []
  | v :: vs => pretty level v :: prettyItems level vs

/-- Members, each to be put on its own line. -/
def prettyMembers (level : Nat) : List (String × Json) → List String
  | [] => []
  | (name, v) :: rest =>
    (stringText name ++ ": " ++ pretty level v) :: prettyMembers level rest

end

end PulseAsm.Json
