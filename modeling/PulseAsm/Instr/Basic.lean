import PulseAsm.Isa.Table

/-!
# Instructions

An instruction as the assembler and the disassembler handle it: a mnemonic,
operands, and whether the flags are updated. It need not be well formed; the
encoder decides that.
-/

namespace PulseAsm

/-- An operand. -/
inductive Operand where
  /-- A number. -/
  | value (v : Int)
  /-- An operator. -/
  | op (op : Operator)
  /-- A jump target by name, resolved to an address when the program is assembled. -/
  | label (name : String)
  deriving DecidableEq

/-- An operand as it is written. -/
def Operand.text : Operand → String
  | .value v => toString v
  | .op o => o.symbol
  | .label name => name

/-- An operand from its text: an operator if the text is a symbol, and a label otherwise. -/
def Operand.ofText (s : String) : Operand :=
  match Operator.ofSymbol? s with
  | some o => .op o
  | none => .label s

/-- An instruction, independent of where it stands in a program. -/
structure Instr where
  /-- The mnemonic. -/
  mnemonic : String
  /-- The operands. -/
  operands : List Operand := []
  /-- Whether the flags are updated. -/
  updateFlags : Bool := false
  deriving DecidableEq

/-- An instruction at its place in a program. -/
structure Line where
  /-- The instruction. -/
  instr : Instr
  /-- The address of its first slot, below `2^32` in a program of that many slots. -/
  addr : Nat
  /-- The number of instructions before it. -/
  number : Nat
  /-- A remark for the listing. -/
  comment : Option String := none
  deriving DecidableEq

/-- Label names and the addresses that they are bound to. -/
abbrev LabelTable := List (String × Nat)

end PulseAsm
