import PulseAsm.Instr.Basic
import PulseAsm.Instr.Immediate

/-!
# Encoding

An instruction is packed into a word by placing each operand in the fields that
its descriptor lists. Faults are reported in a fixed order: an unknown mnemonic,
a wrong number of operands, the first bad field in the order of the table, a
flag update that the instruction cannot ask for.
-/

namespace PulseAsm

/-- How a field is named in a message: the mnemonic and the operand it carries. -/
def Field.name (mnemonic : String) (f : Field) : String :=
  s!"{mnemonic}.op{f.operand}"

/-- The bits of an operand in a field. -/
def Field.encode (mnemonic : String) (f : Field) : Operand → Except Error Nat
  | .op o =>
    match f.kind with
    | .op space =>
      if o.space = space then .ok o.code
      else .error (.operandKind mnemonic f.operand .operator)
    | _ => .error (.operandKind mnemonic f.operand .number)
  | .label _ =>
    match f.kind with
    | .op _ => .error (.operandKind mnemonic f.operand .operator)
    | _ => .error (.operandKind mnemonic f.operand .address)
  | .value v =>
    match f.kind with
    | .op _ => .error (.operandKind mnemonic f.operand .operator)
    | .imm => foldImm (f.name mnemonic) v
    | _ =>
      if 0 ≤ v ∧ v ≤ f.mask then .ok v.toNat
      else .error (.outOfRange (f.name mnemonic) v s!"[0, {f.mask}]")

/-- The operands placed in a list of fields. Each field finds its operand, since
the number of operands is checked first. -/
def encodeFields (mnemonic : String) (operands : List Operand) : List Field → Except Error Word
  | [] => .ok 0
  | f :: fs => do
    let bits ← f.encode mnemonic (operands.getD f.operand (.value 0))
    let rest ← encodeFields mnemonic operands fs
    return f.place bits ||| rest

/-- The flag-update bit of a descriptor, if it is asked for. -/
def Descriptor.encodeFlags (d : Descriptor) (updateFlags : Bool) : Except Error Word :=
  if updateFlags then
    match d.flagBit with
    | some _ => .ok d.flagMask
    | none => .error (.noUpdateFlags d.mnemonic)
  else .ok 0

/-- The word of an instruction whose jump targets are numbers. -/
def encode (i : Instr) : Except Error Word :=
  match Descriptor.ofMnemonic? i.mnemonic with
  | none => .error (.unknownMnemonic i.mnemonic)
  | some d =>
    if i.operands.length = d.arity then do
      let fields ← encodeFields d.mnemonic i.operands d.fields
      let flags ← d.encodeFlags i.updateFlags
      return d.base ||| fields ||| flags
    else .error (.operandCount d.mnemonic d.arity i.operands.length)

end PulseAsm
