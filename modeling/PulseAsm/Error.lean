import PulseAsm.Text.Quoted

/-!
# Errors

Every failure that building a program can report, one constructor per cause,
and the wording of each in `Error.message`.
-/

namespace PulseAsm

open Text

/-- What is named within a generator channel. -/
inductive Item where
  /-- An envelope. -/
  | envelope
  /-- A pulse. -/
  | pulse
  /-- A row of the wave table. -/
  | wave
  deriving DecidableEq

/-- The word for an item in a message. -/
def Item.name : Item → String
  | .envelope => "envelope"
  | .pulse => "pulse"
  | .wave => "wave"

/-- What is addressed by its index on a board. -/
inductive Endpoint where
  /-- A signal generator. -/
  | generator
  /-- A readout. -/
  | readout
  /-- A readout whose acquisition length has been declared. -/
  | declaredReadout
  /-- A trigger output pin. -/
  | outputPin
  deriving DecidableEq

/-- The word for an endpoint in a message. -/
def Endpoint.name : Endpoint → String
  | .generator => "generator"
  | .readout => "readout"
  | .declaredReadout => "declared readout"
  | .outputPin => "output pin"

/-- What an operand should have been. -/
inductive Expected where
  /-- An operator that the field can hold. -/
  | operator
  /-- A number. -/
  | number
  /-- An address, not a label. -/
  | address
  deriving DecidableEq

/-- The words for an expectation in a message. -/
def Expected.text : Expected → String
  | .operator => "an operator of the field's code space"
  | .number => "a numeric value"
  | .address => "a resolved address"

/-- A value does not fit the field it is headed for. -/
structure RangeError where
  /-- The field. -/
  field : String
  /-- The value. -/
  value : Int
  /-- What the field can hold. -/
  limit : String
  deriving DecidableEq

/-- Why a program cannot be built or handed over. -/
inductive Error where
  /-- Required pulse parameters are absent. -/
  | missingParams (style : String) (missing : List String)
  /-- Pulse parameters that the style does not take are present. -/
  | unsupportedParams (style : String) (extra : List String)
  /-- No pulse style has this name. -/
  | unknownStyle (style : String)
  /-- A pulse parameter has a value of the wrong type. -/
  | badParamValue (param value : String)
  /-- The register name is taken. -/
  | duplicateRegister (name : String)
  /-- The register is in use. -/
  | registerTaken (page addr : Nat)
  /-- The label is bound. -/
  | duplicateLabel (name : String)
  /-- The channel has an item of this name. -/
  | duplicateName (item : Item) (ch : Nat) (name : String)
  /-- The channel has no item of this name. -/
  | unknownName (item : Item) (ch : Nat) (name : String)
  /-- A loop is closed and none is open. -/
  | unbalancedLoop
  /-- No instruction has this mnemonic. -/
  | unknownMnemonic (mnemonic : String)
  /-- The instruction takes another number of operands. -/
  | operandCount (mnemonic : String) (expected got : Nat)
  /-- An operand is of the wrong kind. -/
  | operandKind (mnemonic : String) (index : Nat) (expected : Expected)
  /-- The instruction cannot update the flags. -/
  | noUpdateFlags (mnemonic : String)
  /-- No instruction has this opcode. -/
  | unknownOpcode (opcode : Nat)
  /-- The board has no such endpoint. -/
  | noSuchChannel (endpoint : Endpoint) (index : Nat)
  /-- The envelope has no samples. -/
  | emptyEnvelope (name : String)
  /-- The components of the envelope differ in length. -/
  | envelopeShape (name : String) (i q : Nat)
  /-- A value is out of range. -/
  | range (e : RangeError)
  /-- A time is moved on to where 64 bits do not reach. -/
  | timeOverflow
  /-- A label is used and never bound. -/
  | undefinedLabel (label : String) (addr : Nat)
  /-- A transfer moved another number of bytes than asked for. -/
  | transfer (what : String) (requested transferred : Nat)
  deriving DecidableEq

/-- The error of a value that does not fit its field. -/
def Error.outOfRange (field : String) (value : Int) (limit : String) : Error :=
  .range ⟨field, value, limit⟩

/-- The wording of a range error. -/
def RangeError.message (e : RangeError) : String :=
  s!"{e.field} = {e.value} out of range ({e.limit})"

/-- The wording of an error. -/
def Error.message : Error → String
  | .missingParams style missing =>
    s!"missing required {style} pulse parameter(s): {quotedList missing}"
  | .unsupportedParams style extra =>
    s!"unsupported {style} pulse parameter(s): {quotedList extra}"
  | .unknownStyle style => s!"unknown pulse style {quoted style}"
  | .badParamValue param value => s!"bad value {quoted value} for pulse parameter {param}"
  | .duplicateRegister name => s!"register name {quoted name} already exists"
  | .registerTaken page addr => s!"register p{page}:r{addr} is already occupied"
  | .duplicateLabel name => s!"label {quoted name} already defined"
  | .duplicateName item ch name =>
    s!"{item.name} {quoted name} already defined on channel {ch}"
  | .unknownName item ch name => s!"{item.name} {quoted name} not defined on channel {ch}"
  | .unbalancedLoop => "close_loop() without a matching open_loop()"
  | .unknownMnemonic mnemonic => s!"unknown mnemonic {quoted mnemonic}"
  | .operandCount mnemonic expected got =>
    s!"{mnemonic} takes {expected} operand(s), got {got}"
  | .operandKind mnemonic index expected =>
    s!"{mnemonic} operand {index}: expected {expected.text}"
  | .noUpdateFlags mnemonic => s!"{mnemonic} has no update-flags bit"
  | .unknownOpcode opcode => s!"unknown opcode {Radix.hex 2 opcode}"
  | .noSuchChannel endpoint index => s!"{endpoint.name} {index} is not configured"
  | .emptyEnvelope name => s!"envelope {quoted name} has no samples"
  | .envelopeShape name i q =>
    s!"envelope {quoted name}: I and Q lengths differ ({i} vs {q})"
  | .range e => e.message
  | .timeOverflow => "attempt to add with overflow"
  | .undefinedLabel label addr =>
    s!"label {quoted label} referenced at p_addr {addr} is never defined"
  | .transfer what requested transferred =>
    s!"{what}: requested {requested} bytes, transferred {transferred}"

end PulseAsm
