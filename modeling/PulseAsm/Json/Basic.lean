/-!
# JSON values

A JSON value as it is read: integers and other numbers are kept apart, and the
members of an object stay in the order of the text, repeated names included.
-/

namespace PulseAsm

/-- A JSON value. -/
inductive Json where
  /-- Null. -/
  | null
  /-- A truth value. -/
  | bool (b : Bool)
  /-- A number written without fraction and exponent that fits in 64 bits. -/
  | int (n : Int)
  /-- Any other number. -/
  | float (x : Float)
  /-- A text. -/
  | str (s : String)
  /-- A list. -/
  | arr (items : List Json)
  /-- An object. -/
  | obj (members : List (String × Json))
  deriving Inhabited

namespace Json

/-- A member put in its place in a list that is ordered by name; an earlier
member of the same name gives way. -/
def insertMember (name : String) (v : Json) : List (String × Json) → List (String × Json)
  | [] => [(name, v)]
  | (n, w) :: rest =>
    if name < n then (name, v) :: (n, w) :: rest
    else if name = n then (name, v) :: rest
    else (n, w) :: insertMember name v rest

/-- Members ordered by name; of members with one name the last is kept. -/
def sortMembers (members : List (String × Json)) : List (String × Json) :=
  members.foldl (fun acc m => insertMember m.1 m.2 acc) []

mutual

/-- The value with the members of every object ordered by name, the last of each
name kept. -/
def canonical : Json → Json
  | arr items => arr (canonicalItems items)
  | obj members => obj (sortMembers (canonicalMembers members))
  | v => v

/-- The canonical forms of items. -/
def canonicalItems : List Json → List Json
  | [] => []
  | v :: vs => canonical v :: canonicalItems vs

/-- The members with canonical values. -/
def canonicalMembers : List (String × Json) → List (String × Json)
  | [] => []
  | (name, v) :: rest => (name, canonical v) :: canonicalMembers rest

end

/-- The value of a member of an object. -/
def get? (name : String) : Json → Option Json
  | obj members => members.lookup name
  | _ => none

end Json

end PulseAsm
