import PulseAsm.Error
import PulseAsm.Json.Printer
import PulseAsm.Json.Reader
import PulseAsm.Wave

/-!
# Pulse parameters

A pulse has a style and parameters in physical units. Each style requires some
parameters and allows others. Parameters are read from a JSON object in which
`style` names the style and every other member is a parameter: members are taken
in the order of their names, the first value of a wrong type is reported, and
then all names that are no parameter.
-/

namespace PulseAsm

open Json

/-- A pulse style. -/
inductive Style where
  /-- A carrier of constant gain. -/
  | const
  /-- An envelope. -/
  | arb
  /-- The halves of an envelope with a constant carrier between them. -/
  | flatTop
  deriving DecidableEq

/-- A pulse parameter. -/
inductive Param where
  /-- The frequency in MHz. -/
  | freq
  /-- The phase in degrees. -/
  | phase
  /-- The share of full scale. -/
  | gain
  /-- The length in clocks of the generator. -/
  | length
  /-- The name of the envelope. -/
  | envelope
  /-- Whether the phase starts anew. -/
  | phaseReset
  /-- What is held afterwards. -/
  | idle
  /-- Whether it plays once or repeats. -/
  | mode
  /-- Where the output comes from. -/
  | source
  deriving DecidableEq

namespace Param

/-- Every parameter. -/
def all : List Param :=
  [freq, phase, gain, length, envelope, phaseReset, idle, mode, source]

/-- The name of a parameter. -/
def name : Param → String
  | freq => "freq"
  | phase => "phase"
  | gain => "gain"
  | length => "length"
  | envelope => "envelope"
  | phaseReset => "phrst"
  | idle => "stdysel"
  | mode => "mode"
  | source => "outsel"

/-- The parameter with a name. -/
def ofName? (s : String) : Option Param := all.find? (·.name = s)

end Param

namespace Style

/-- The name of a style. -/
def name : Style → String
  | const => "const"
  | arb => "arb"
  | flatTop => "flat_top"

/-- The style with a name. -/
def ofName? (s : String) : Option Style := [const, arb, flatTop].find? (·.name = s)

/-- The style with a name. -/
def ofName (s : String) : Except Error Style :=
  match ofName? s with
  | some style => .ok style
  | none => .error (.unknownStyle s)

/-- The parameters that a style requires. -/
def required : Style → List Param
  | const => [.freq, .phase, .gain, .length]
  | arb => [.freq, .phase, .gain, .envelope]
  | flatTop => [.freq, .phase, .gain, .length, .envelope]

/-- The parameters that a style allows beyond those. -/
def optional : Style → List Param
  | const => [.phaseReset, .idle, .mode]
  | arb => [.phaseReset, .idle, .mode, .source]
  | flatTop => [.phaseReset, .idle]

end Style

/-- Pulse parameters, each of which may be left open. -/
structure Params where
  /-- The frequency in MHz. -/
  freq : Option Float := none
  /-- The phase in degrees. -/
  phase : Option Float := none
  /-- The share of full scale. -/
  gain : Option Float := none
  /-- The length in clocks of the generator. -/
  length : Option Nat := none
  /-- The name of the envelope. -/
  envelope : Option String := none
  /-- Whether the phase starts anew. -/
  phaseReset : Option Bool := none
  /-- What is held afterwards. -/
  idle : Option IdleLevel := none
  /-- Whether it plays once or repeats. -/
  mode : Option RunMode := none
  /-- Where the output comes from. -/
  source : Option OutputSource := none

namespace Params

/-- Whether a parameter has a value. -/
def isDefined (ps : Params) : Param → Bool
  | .freq => ps.freq.isSome
  | .phase => ps.phase.isSome
  | .gain => ps.gain.isSome
  | .length => ps.length.isSome
  | .envelope => ps.envelope.isSome
  | .phaseReset => ps.phaseReset.isSome
  | .idle => ps.idle.isSome
  | .mode => ps.mode.isSome
  | .source => ps.source.isSome

/-- The parameters that have a value. -/
def defined (ps : Params) : List Param := Param.all.filter ps.isDefined

/-- A truth value, or zero or one in its place. -/
def asSwitch? : Json → Option Bool
  | .bool b => some b
  | .int 0 => some false
  | .int 1 => some true
  | _ => none

/-- The parameters with a value for one of them; none if the value has the wrong type. -/
def set? (ps : Params) (p : Param) (v : Json) : Option Params :=
  match p with
  | .freq => v.asFloat?.map fun x => { ps with freq := some x }
  | .phase => v.asFloat?.map fun x => { ps with phase := some x }
  | .gain => v.asFloat?.map fun x => { ps with gain := some x }
  | .length => (v.asNat? 32).map fun n => { ps with length := some n }
  | .envelope => v.asString?.map fun s => { ps with envelope := some s }
  | .phaseReset => (asSwitch? v).map fun b => { ps with phaseReset := some b }
  | .idle => ((v.asName? isNull).bind IdleLevel.ofName?).map fun x => { ps with idle := some x }
  | .mode => ((v.asName? isNull).bind RunMode.ofName?).map fun x => { ps with mode := some x }
  | .source =>
    ((v.asName? isNull).bind OutputSource.ofName?).map fun x => { ps with source := some x }

/-- The parameters with the members of an object put in, in order. Names that are
no parameter are passed over. -/
def setAll (ps : Params) : List (String × Json) → Except Error Params
  | [] => .ok ps
  | (name, v) :: rest =>
    match Param.ofName? name with
    | none => setAll ps rest
    | some p =>
      match ps.set? p v with
      | some ps => setAll ps rest
      | none => .error (.badParamValue p.name v.compact)

/-- The style that an object names. -/
def styleOf (members : List (String × Json)) : Except Error Style :=
  match members.lookup "style" with
  | some (.str s) => Style.ofName s
  | some v => .error (.unknownStyle v.compact)
  | none => .error (.missingParams "pulse" ["style"])

/-- The style and the parameters of an object. -/
def ofMembers (members : List (String × Json)) : Except Error (Style × Params) := do
  let members := sortMembers (canonicalMembers members)
  let style ← styleOf members
  let rest := members.filter (·.1 ≠ "style")
  let params ← setAll {} rest
  let extra := (rest.map (·.1)).filter fun name => (Param.ofName? name).isNone
  if extra.isEmpty then return (style, params)
  else throw (.unsupportedParams style.name extra)

/-- Parameters as a record whose fields are all optional. -/
def ofJson? (v : Json) : Option Params := do
  let fs ← Fields.ofJson? (Param.all.map Param.name) true v
  return {
    freq := ← fs.optional "freq" asFloat?
    phase := ← fs.optional "phase" asFloat?
    gain := ← fs.optional "gain" asFloat?
    length := ← fs.optional "length" (asNat? 32)
    envelope := ← fs.optional "envelope" asString?
    phaseReset := ← fs.optional "phrst" asBool?
    idle := ← fs.optional "stdysel" fun v => (v.asName? isNull).bind IdleLevel.ofName?
    mode := ← fs.optional "mode" fun v => (v.asName? isNull).bind RunMode.ofName?
    source := ← fs.optional "outsel" fun v => (v.asName? isNull).bind OutputSource.ofName? }

/-- Check that a style gets what it requires and nothing that it does not take. -/
def validate (style : Style) (ps : Params) : Except Error Unit :=
  let missing := style.required.filter fun p => !ps.isDefined p
  let extra := ps.defined.filter fun p => p ∉ style.required ∧ p ∉ style.optional
  if !missing.isEmpty then .error (.missingParams style.name (missing.map Param.name))
  else if !extra.isEmpty then .error (.unsupportedParams style.name (extra.map Param.name))
  else .ok ()

end Params

end PulseAsm
