import PulseAsm.Isa.Operator

/-!
# Instruction words and their fields

An instruction is one 64-bit word: the opcode in the top byte, and below it the
fields that hold the operands. A field is a run of bits with a kind, which says
what operands it takes.
-/

namespace PulseAsm

/-- An instruction word. -/
abbrev Word := BitVec 64

/-- Where the opcode starts. -/
def opcodeShift : Nat := 56

/-- The width of an immediate. -/
def immWidth : Nat := 31

/-- The width of a program address. -/
def addrWidth : Nat := 16

/-- What a field holds. -/
inductive FieldKind where
  /-- A register page. -/
  | page
  /-- An output channel. -/
  | channel
  /-- A register of the page. -/
  | reg
  /-- An operator of the code space. -/
  | op (space : OpSpace)
  /-- A signed immediate, folded into 31 bits. -/
  | imm
  /-- A program address, usually given by a label. -/
  | addr
  /-- A single bit. -/
  | flag
  deriving DecidableEq

/-- A run of bits that carries an operand. -/
structure Field where
  /-- The index of the operand. -/
  operand : Nat
  /-- The lowest bit. -/
  offset : Nat
  /-- The number of bits. -/
  width : Nat
  /-- What the field holds. -/
  kind : FieldKind
  deriving DecidableEq

namespace Field

/-- The largest number that the field can hold. -/
def mask (f : Field) : Nat := (1 <<< f.width) - 1

/-- The word with `bits` in the field and zeros elsewhere. -/
def place (f : Field) (bits : Nat) : Word := BitVec.ofNat 64 bits <<< f.offset

/-- The number that the field holds in a word. -/
def extract (f : Field) (w : Word) : Nat := (w >>> f.offset).toNat % (1 <<< f.width)

/-- The field of a register page. -/
def page (operand : Nat) : Field := ⟨operand, 53, 3, .page⟩

/-- The field of an output channel. -/
def channel (operand : Nat) : Field := ⟨operand, 50, 3, .channel⟩

/-- The field of a register that starts at `offset`. -/
def reg (operand offset : Nat) : Field := ⟨operand, offset, 5, .reg⟩

/-- The field of an operator. -/
def op (operand : Nat) (space : OpSpace) : Field := ⟨operand, 46, 4, .op space⟩

/-- The field of an immediate. -/
def imm (operand : Nat) : Field := ⟨operand, 0, immWidth, .imm⟩

/-- The field of a program address. -/
def addr (operand : Nat) : Field := ⟨operand, 0, addrWidth, .addr⟩

/-- The field of a single bit at `offset`. -/
def flag (operand offset : Nat) : Field := ⟨operand, offset, 1, .flag⟩

end Field

end PulseAsm
