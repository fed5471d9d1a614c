import PulseAsm.Binary64.Basic
import PulseAsm.Json.Basic
import PulseAsm.Text.Radix

/-!
# Reading JSON

A reader for JSON texts: blanks are space, tab, line feed and carriage return;
strings hold no raw control character and no half of a surrogate pair; numbers
have no leading zero and no sign but `-`. A text is refused when it nests deeper
than `maxDepth`, when a number lies beyond the largest double, and when anything
but blanks follows the value.

A number without fraction and exponent is an integer if it fits in 64 bits,
signed or unsigned; `-0` is a double, since no integer keeps its sign.

A schema tells which members of the objects in a text are read. The others are
passed over: they must be well formed, but no limit holds for their numbers,
their depth, or the surrogates in their strings.
-/

namespace PulseAsm.Json

open Text

/-- What a reader returns: the value read and the rest of the text. -/
abbrev Read (α : Type) := List Char → Option (α × List Char)

/-- How deep lists and objects may nest. -/
def maxDepth : Nat := 127

/-- Whether a character is a blank. -/
def isBlank (c : Char) : Bool := c == ' ' || c == '\n' || c == '\t' || c == '\r'

/-- The text behind its leading blanks. -/
def skipBlank (cs : List Char) : List Char := cs.dropWhile isBlank

/-- The text behind a word that it must start with. -/
def expect : List Char → List Char → Option (List Char)
  | [], cs => some cs
  | w :: ws, c :: cs => if w = c then expect ws cs else none
  | _ :: _, [] => none

/-! ### Strings -/

/-- The number of four hexadecimal digits. -/
def hexUnit : Read Nat
  | a :: b :: c :: d :: cs => (Radix.ofDigits? 16 [a, b, c, d]).map (·, cs)
  | _ => none

/-- Whether a 16-bit unit is the first half of a surrogate pair. -/
def isHighSurrogate (n : Nat) : Bool := 0xD800 ≤ n && n < 0xDC00

/-- Whether a 16-bit unit is the second half of a surrogate pair. -/
def isLowSurrogate (n : Nat) : Bool := 0xDC00 ≤ n && n < 0xE000

/-- The character behind `\u`: one unit, or two that make a pair. -/
def escapedUnit (cs : List Char) : Option (Char × List Char) := do
  let (high, cs) ← hexUnit cs
  if isHighSurrogate high then
    let cs ← expect ['\\', 'u'] cs
    let (low, cs) ← hexUnit cs
    if isLowSurrogate low then
      some (Char.ofNat (0x10000 + (high - 0xD800) * 0x400 + (low - 0xDC00)), cs)
    else none
  else if isLowSurrogate high then none
  else some (Char.ofNat high, cs)

/-- The character behind a backslash. -/
def escaped : Read Char
  | '"' :: cs => some ('"', cs)
  | '\\' :: cs => some ('\\', cs)
  | '/' :: cs => some ('/', cs)
  | 'b' :: cs => some ('\x08', cs)
  | 'f' :: cs => some ('\x0c', cs)
  | 'n' :: cs => some ('\n', cs)
  | 'r' :: cs => some ('\r', cs)
  | 't' :: cs => some ('\t', cs)
  | 'u' :: cs => escapedUnit cs
  | _ => none

/-- The characters up to the closing quote; `fuel` bounds their number. -/
def stringBody : Nat → List Char → Read (List Char)
  | 0, _ => fun _ => none
  | fuel + 1, acc => fun cs =>
    match cs with
    | '"' :: rest => some (acc.reverse, rest)
    | '\\' :: rest =>
      match escaped rest with
      | some (c, rest) => stringBody fuel (c :: acc) rest
      | none => none
    | c :: rest => if c.toNat < 0x20 then none else stringBody fuel (c :: acc) rest
    | [] => none

/-- A string, behind its opening quote. -/
def string (cs : List Char) : Option (String × List Char) :=
  (stringBody (cs.length + 1) [] cs).map fun (body, rest) => (String.ofList body, rest)

/-! ### Numbers -/

/-- The digits at the start of a text, and the rest. -/
def digits (cs : List Char) : List Char × List Char :=
  (cs.takeWhile Char.isDigit, cs.dropWhile Char.isDigit)

/-- The number of a list of decimal digits. -/
def digitsValue (cs : List Char) : Nat := cs.foldl (fun n c => 10 * n + (c.toNat - 48)) 0

/-- Digits of which there must be one. -/
def someDigits (cs : List Char) : Option (List Char × List Char) :=
  match digits cs with
  | ([], _) => none
  | r => some r

/-- The digits before the point: a single zero, or digits that do not start with one. -/
def wholeDigits : Read (List Char)
  | '0' :: cs => some (['0'], cs)
  | cs => someDigits cs

/-- The digits behind the point, if there is one. -/
def fractionDigits : Read (Option (List Char))
  | '.' :: cs => (someDigits cs).map fun (ds, rest) => (some ds, rest)
  | cs => some (none, cs)

/-- The exponent, if there is one. -/
def exponentPart (cs : List Char) : Option (Option Int × List Char) :=
  match cs with
  | c :: rest =>
    if c = 'e' ∨ c = 'E' then
      let (sign, rest) : Int × List Char := match rest with
        | '-' :: rest => (-1, rest)
        | '+' :: rest => (1, rest)
        | rest => (1, rest)
      (someDigits rest).map fun (ds, rest) => (some (sign * digitsValue ds), rest)
    else some (none, cs)
  | [] => some (none, cs)

/-- A number from its parts. -/
def ofNumberParts (negative : Bool) (whole : List Char) (fraction : Option (List Char))
    (exponent : Option Int) : Option Json :=
  let n := digitsValue whole
  let isInt := fraction.isNone && exponent.isNone
  if isInt && !negative && decide (n < 1 <<< 64) then some (int n)
  else if isInt && negative && decide (0 < n ∧ n ≤ 1 <<< 63) then some (int (-n))
  else
    let ds := fraction.getD []
    (Binary64.ofDecimal? negative (digitsValue (whole ++ ds)) (exponent.getD 0 - ds.length)).map float

/-- The sign, the digits before and behind the point, and the exponent of a number. -/
def numberParts (cs : List Char) :
    Option ((Bool × List Char × Option (List Char) × Option Int) × List Char) := do
  let (negative, cs) := match cs with
    | '-' :: rest => (true, rest)
    | cs => (false, cs)
  let (whole, cs) ← wholeDigits cs
  let (fraction, cs) ← fractionDigits cs
  let (exponent, cs) ← exponentPart cs
  return ((negative, whole, fraction, exponent), cs)

/-- A number. -/
def number (cs : List Char) : Option (Json × List Char) := do
  let ((negative, whole, fraction, exponent), cs) ← numberParts cs
  let v ← ofNumberParts negative whole fraction exponent
  return (v, cs)

/-! ### Values -/

/-- Items with commas between them, up to the closing mark. The item of index `k` is
read by `item k`; `fuel` bounds their number. -/
def items (close : Char) (item : Nat → Read α) : Nat → Nat → Read (List α)
  | 0, _ => fun _ => none
  | fuel + 1, k => fun cs =>
    match item k cs with
    | none => none
    | some (a, rest) =>
      match skipBlank rest with
      | ',' :: rest => (items close item fuel (k + 1) rest).map fun (as, rest) => (a :: as, rest)
      | c :: rest => if c = close then some ([a], rest) else none
      | [] => none

/-- Items up to the closing mark, which may come at once. -/
def itemList (close : Char) (item : Nat → Read α) (cs : List Char) : Option (List α × List Char) :=
  match skipBlank cs with
  | c :: rest => if c = close then some ([], rest) else items close item (cs.length + 1) 0 cs
  | [] => none

/-- A member of an object: its name, read by `name` behind the opening quote, and
its value, read by what `value` gives for the name. -/
def member (name : Read α) (value : α → Read β) (cs : List Char) :
    Option ((α × β) × List Char) := do
  let cs ← expect ['"'] (skipBlank cs)
  let (a, cs) ← name cs
  let cs ← expect [':'] (skipBlank cs)
  let (b, cs) ← value a cs
  return ((a, b), cs)

/-! ### Passing over values -/

/-- What stands behind a backslash, in a string that is passed over. -/
def passEscaped : Read Unit
  | 'u' :: cs => (hexUnit cs).map fun (_, rest) => ((), rest)
  | cs => (escaped cs).map fun (_, rest) => ((), rest)

/-- A string that is passed over, behind its opening quote; `fuel` bounds its length. -/
def passString : Nat → Read Unit
  | 0 => fun _ => none
  | fuel + 1 => fun cs =>
    match cs with
    | '"' :: rest => some ((), rest)
    | '\\' :: rest =>
      match passEscaped rest with
      | some (_, rest) => passString fuel rest
      | none => none
    | c :: rest => if c.toNat < 0x20 then none else passString fuel rest
    | [] => none

/-- A word that is passed over. -/
def passWord (word cs : List Char) : Option (Unit × List Char) := (expect word cs).map ((), ·)

/-- A value that is passed over; `fuel` bounds its depth and its length. -/
def passValue : Nat → Read Unit
  | 0 => fun _ => none
  | fuel + 1 => fun cs =>
    match skipBlank cs with
    | '[' :: rest =>
      (itemList ']' (fun _ => passValue fuel) rest).map fun (_, rest) => ((), rest)
    | '\x7b' :: rest =>
      (itemList '\x7d' (fun _ => member (passString fuel) fun _ => passValue fuel) rest).map
        fun (_, rest) => ((), rest)
    | 'n' :: rest => passWord ['u', 'l', 'l'] rest
    | 't' :: rest => passWord ['r', 'u', 'e'] rest
    | 'f' :: rest => passWord ['a', 'l', 's', 'e'] rest
    | '"' :: rest => passString fuel rest
    | cs => (numberParts cs).map fun (_, rest) => ((), rest)

/-! ### Values by a schema -/

/-- Which members of the objects in a text are read. -/
inductive Schema where
  /-- All of them. -/
  | all
  /-- Those of a record with given fields; a list may bring them in their order. -/
  | record (fields : List (String × Schema))
  /-- Those of the items of a list. -/
  | list (item : Schema)

namespace Schema

/-- The schema of an item of a list. -/
def item : Schema → Nat → Schema
  | all, _ => all
  | record fields, k => ((fields[k]?).map (·.2)).getD all
  | list s, _ => s

/-- The schema of a member of an object, if the member is read. -/
def member? : Schema → String → Option Schema
  | record fields, name => fields.lookup name
  | _, _ => some all

end Schema

/-- A value that is neither a list nor an object. -/
def scalar : Read Json
  | 'n' :: cs => (expect ['u', 'l', 'l'] cs).map (null, ·)
  | 't' :: cs => (expect ['r', 'u', 'e'] cs).map (bool true, ·)
  | 'f' :: cs => (expect ['a', 'l', 's', 'e'] cs).map (bool false, ·)
  | '"' :: cs => (string cs).map fun (s, rest) => (str s, rest)
  | cs => number cs

/-- A value that nests at most `depth` deep, as far as it is read by a schema. -/
def value : Nat → Schema → Read Json
  | 0, _ => fun cs =>
    match skipBlank cs with
    | '[' :: _ => none
    | '\x7b' :: _ => none
    | cs => scalar cs
  | depth + 1, s => fun cs =>
    match skipBlank cs with
    | '[' :: rest =>
      (itemList ']' (fun k => value depth (s.item k)) rest).map fun (vs, rest) => (arr vs, rest)
    | '\x7b' :: rest =>
      let memberValue (name : String) : Read (Option Json) := fun cs =>
        match s.member? name with
        | some s => (value depth s cs).map fun (v, rest) => (some v, rest)
        | none => (passValue (cs.length + 1) cs).map fun (_, rest) => (none, rest)
      (itemList '\x7d' (fun _ => member string memberValue) rest).map fun (ms, rest) =>
        (obj (ms.filterMap fun (name, v) => v.map (name, ·)), rest)
    | cs => scalar cs

/-- The value of a JSON text, as far as it is read by a schema. -/
def parseBy? (s : Schema) (text : String) : Option Json :=
  match value maxDepth s text.toList with
  | some (v, rest) => if (skipBlank rest).isEmpty then some v else none
  | none => none

/-- The value of a JSON text. -/
def parse? (text : String) : Option Json := parseBy? .all text

end PulseAsm.Json
