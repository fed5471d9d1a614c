import PulseAsm.Error
import PulseAsm.Instr.Basic

/-!
# Decoding

A word is read by the descriptor of its opcode. An operand that sits in two
fields is read from the first of them. A word is refused when no instruction has
its opcode, or when an operator field holds a code that its space does not
define.
-/

namespace PulseAsm

/-- The operand that a field holds in a word. -/
def Field.decode (mnemonic : String) (f : Field) (w : Word) : Except Error Operand :=
  match f.kind with
  | .op space =>
    match Operator.ofCode? space (f.extract w) with
    | some o => .ok (.op o)
    | none => .error (.outOfRange s!"{mnemonic}.op{f.operand}" (f.extract w)
        "a defined operator code")
  | _ => .ok (.value (f.extract w))

/-- The operand of an index; an index that no field carries reads as zero. -/
def Descriptor.decodeOperand (d : Descriptor) (w : Word) (index : Nat) : Except Error Operand :=
  match d.fieldFor? index with
  | some f => f.decode d.mnemonic w
  | none => .ok (.value 0)

/-- Whether a word asks for the flags to be updated. -/
def Descriptor.decodeFlags (d : Descriptor) (w : Word) : Bool :=
  match d.flagBit with
  | some b => w.getLsbD b
  | none => false

/-- The opcode of a word. -/
def opcodeOf (w : Word) : Nat := (w >>> opcodeShift).toNat

/-- The instruction that a word encodes. -/
def decode (w : Word) : Except Error Instr :=
  match Descriptor.ofOpcode? (opcodeOf w) with
  | none => .error (.unknownOpcode (opcodeOf w))
  | some d => do
    let operands ← (List.range d.arity).mapM (d.decodeOperand w)
    return ⟨d.mnemonic, operands, d.decodeFlags w⟩

end PulseAsm
