import PulseAsm.Binary64.Basic
import PulseAsm.Json.Basic

/-!
# Typed reading of JSON values

Readers that take a value of one shape and refuse all others. A record may be
written as an object, or as the list of its fields in the order in which they
are declared; an optional field may be null or left out. A record of one of
several kinds carries the name of its kind under a tag, or as the first item of
the list.
-/

namespace PulseAsm.Json

/-! ### Scalars -/

/-- A truth value. -/
def asBool? : Json → Option Bool
  | bool b => some b
  | _ => none

/-- A text. -/
def asString? : Json → Option String
  | str s => some s
  | _ => none

/-- An integer from `lo` to `hi`. -/
def asInt? (lo hi : Int) : Json → Option Int
  | int n => if lo ≤ n ∧ n ≤ hi then some n else none
  | _ => none

/-- A natural number that fits in `bits` bits. -/
def asNat? (bits : Nat) (v : Json) : Option Nat :=
  (v.asInt? 0 ((1 <<< bits) - 1 : Nat)).map Int.toNat

/-- A 64-bit signed integer. -/
def asInt64? : Json → Option Int := asInt? Binary64.int64Min Binary64.int64Max

/-- A number, as the nearest double. -/
def asFloat? : Json → Option Float
  | int n => some (Binary64.ofInt n)
  | float x => some x
  | _ => none

/-- A list, each item read by `item`. -/
def asList? (item : Json → Option α) : Json → Option (List α)
  | arr items => items.mapM item
  | _ => none

/-- A name, or an object with the name as its only member and no content: null,
or what else `blank` admits. -/
def asName? (blank : Json → Bool) : Json → Option String
  | str s => some s
  | obj [(name, v)] => if blank v then some name else none
  | _ => none

/-- Null is the only content. -/
def isNull : Json → Bool
  | null => true
  | _ => false

/-- Null and the empty object are no content. -/
def isNullOrEmpty : Json → Bool
  | null => true
  | obj [] => true
  | _ => false

/-! ### Records -/

/-- The fields that a record brings, by name. -/
structure Fields where
  /-- The fields in the order of the text. -/
  members : List (String × Json)

namespace Fields

/-- Whether no name of `names` occurs twice among members. -/
def distinct (names : List String) (members : List (String × Json)) : Bool :=
  names.all fun name => (members.filter (·.1 = name)).length ≤ 1

/-- The fields of a record that declares `names`. An object must not repeat a
declared name, and must bring no other one if `closed`; a list must not be longer
than the declaration. -/
def ofJson? (names : List String) (closed : Bool) : Json → Option Fields
  | obj members =>
    if distinct names members && (!closed || members.all (·.1 ∈ names)) then some ⟨members⟩
    else none
  | arr items => if items.length ≤ names.length then some ⟨names.zip items⟩ else none
  | _ => none

/-- A field that must be there. -/
def required (fs : Fields) (name : String) (read : Json → Option α) : Option α :=
  (fs.members.lookup name).bind read

/-- A field that has a value when it is left out. -/
def withDefault (fs : Fields) (name : String) (read : Json → Option α) (default : α) : Option α :=
  match fs.members.lookup name with
  | some v => read v
  | none => some default

/-- A field that may be null or left out. -/
def optional (fs : Fields) (name : String) (read : Json → Option α) : Option (Option α) :=
  match fs.members.lookup name with
  | some null => some none
  | some v => (read v).map some
  | none => some none

end Fields

/-- The kind of a tagged record, and the record without its tag. -/
def tagged? (tag : String) : Json → Option (String × Json)
  | obj members =>
    match members.filter (·.1 = tag) with
    | [(_, str kind)] => some (kind, obj (members.filter (·.1 ≠ tag)))
    | _ => none
  | arr (str kind :: rest) => some (kind, arr rest)
  | _ => none

end PulseAsm.Json
