import PulseAsm.Isa.Field

/-!
# The instruction table

One descriptor per mnemonic: its opcode, the fields of its operands in the order
in which they are checked, the bits that are always set, the bit that asks for
the flags to be updated, the memory slots it takes, and how it is written.
Encoding, decoding, listing and analysis are all driven by this table.
-/

namespace PulseAsm

/-- The layout family of an instruction. -/
inductive Format where
  /-- An immediate in the low 31 bits. -/
  | immediate
  /-- A jump with at most one register. -/
  | jump1
  /-- A jump guarded by a comparison of registers. -/
  | jump2
  /-- Registers only. -/
  | register
  deriving DecidableEq

/-- A part of the pattern that an instruction's operands are written by. -/
inductive Piece where
  /-- Fixed text. -/
  | text (s : String)
  /-- The operand of an index. -/
  | operand (index : Nat)
  deriving DecidableEq

/-- The pattern piece as text, with the operand's index in braces. -/
def Piece.pattern : Piece → String
  | .text s => s
  | .operand index => "\x7b" ++ toString index ++ "\x7d"

/-- What is known of an instruction. -/
structure Descriptor where
  /-- The name. -/
  mnemonic : String
  /-- The layout family. -/
  format : Format
  /-- The top byte of the word. -/
  opcode : Nat
  /-- The fields of the operands, in the order in which they are checked. -/
  fields : List Field
  /-- How the operands are written. -/
  pieces : List Piece
  /-- The bit that asks for the flags to be updated. -/
  flagBit : Option Nat := none
  /-- The memory slots that the instruction takes. -/
  slots : Nat := 1
  /-- The bits that are always set. -/
  forced : Word := 0

namespace Descriptor

/-- The number of operands. -/
def arity (d : Descriptor) : Nat := d.fields.foldl (fun n f => max n (f.operand + 1)) 0

/-- The first field that carries an operand. -/
def fieldFor? (d : Descriptor) (operand : Nat) : Option Field :=
  d.fields.find? (·.operand = operand)

/-- The pattern that the operands are written by, as text. -/
def pattern (d : Descriptor) : String := String.join (d.pieces.map Piece.pattern)

/-- The word of the instruction before its operands are placed. -/
def base (d : Descriptor) : Word := BitVec.ofNat 64 d.opcode <<< opcodeShift ||| d.forced

/-- The word with the flag-update bit alone; zero if there is no such bit. -/
def flagMask (d : Descriptor) : Word :=
  match d.flagBit with
  | some b => 1 <<< b
  | none => 0

end Descriptor

open PulseAsm.Field in
/-- The instruction set. -/
def table : List Descriptor :=
  [{ mnemonic := "nop", format := .immediate, opcode := 0x00, fields := [], pieces := [] },
   { mnemonic := "pushi", format := .immediate, opcode := 0x10,
     fields := [page 0, reg 1 41, reg 2 36, imm 3],
     pieces := [.operand 0, .text ", $", .operand 1, .text ", $", .operand 2, .text ", ",
       .operand 3] },
   { mnemonic := "popi", format := .immediate, opcode := 0x11,
     fields := [page 0, reg 1 41],
     pieces := [.operand 0, .text ", $", .operand 1] },
   { mnemonic := "mathi", format := .immediate, opcode := 0x12,
     fields := [page 0, reg 1 41, reg 2 36, op 3 .arith, imm 4],
     pieces := [.operand 0, .text ", $", .operand 1, .text ", $", .operand 2, .text " ",
       .operand 3, .text " ", .operand 4],
     flagBit := some 31 },
   { mnemonic := "seti", format := .immediate, opcode := 0x13,
     fields := [channel 0, page 1, reg 2 36, imm 3],
     pieces := [.operand 0, .text ", ", .operand 1, .text ", $", .operand 2, .text ", ",
       .operand 3] },
   { mnemonic := "synci", format := .immediate, opcode := 0x14,
     fields := [imm 0], pieces := [.operand 0] },
   { mnemonic := "waiti", format := .immediate, opcode := 0x15,
     fields := [channel 0, imm 1],
     pieces := [.operand 0, .text ", ", .operand 1],
     slots := 2 },
   { mnemonic := "bitwi", format := .immediate, opcode := 0x16,
     fields := [page 0, reg 1 41, reg 2 36, op 3 .bitwise, imm 4],
     pieces := [.operand 0, .text ", $", .operand 1, .text ", $", .operand 2, .text " ",
       .operand 3, .text " ", .operand 4],
     flagBit := some 31 },
   { mnemonic := "memri", format := .immediate, opcode := 0x17,
     fields := [page 0, reg 1 41, imm 2],
     pieces := [.operand 0, .text ", $", .operand 1, .text ", ", .operand 2] },
   { mnemonic := "memwi", format := .immediate, opcode := 0x18,
     fields := [page 0, reg 1 31, imm 2],
     pieces := [.operand 0, .text ", $", .operand 1, .text ", ", .operand 2] },
   { mnemonic := "regwi", format := .immediate, opcode := 0x19,
     fields := [page 0, reg 1 41, imm 2],
     pieces := [.operand 0, .text ", $", .operand 1, .text ", ", .operand 2],
     flagBit := some 31 },
   { mnemonic := "setbi", format := .immediate, opcode := 0x1A,
     fields := [page 0, reg 1 41, imm 2],
     pieces := [.operand 0, .text ", $", .operand 1, .text ", ", .operand 2] },
   { mnemonic := "wseti", format := .immediate, opcode := 0x1B,
     fields := [channel 0, page 1, reg 2 36, imm 3],
     pieces := [.operand 0, .text ", ", .operand 1, .text ", $", .operand 2, .text ", &",
       .operand 3] },
   { mnemonic := "dporti", format := .immediate, opcode := 0x1C,
     fields := [channel 0, page 1, reg 2 36, imm 3],
     pieces := [.operand 0, .text ", ", .operand 1, .text ", $", .operand 2, .text ", ",
       .operand 3] },
   { mnemonic := "trigi", format := .immediate, opcode := 0x1D,
     fields := [channel 0, flag 1 46, imm 2],
     pieces := [.operand 0, .text ", ", .operand 1, .text ", ", .operand 2] },
   { mnemonic := "loopnz", format := .jump1, opcode := 0x30,
     fields := [page 0, reg 1 41, reg 1 36, addr 2],
     pieces := [.operand 0, .text ", $", .operand 1, .text ", @", .operand 2],
     forced := 0x8 <<< 46 },
   { mnemonic := "condj", format := .jump2, opcode := 0x31,
     fields := [page 0, op 2 .compare, reg 1 36, reg 3 31, addr 4],
     pieces := [.operand 0, .text ", $", .operand 1, .text " ", .operand 2, .text " $",
       .operand 3, .text ", @", .operand 4] },
   { mnemonic := "jnz", format := .jump1, opcode := 0x32,
     fields := [addr 0], pieces := [.text "@", .operand 0] },
   { mnemonic := "end", format := .jump1, opcode := 0x3F, fields := [], pieces := [] },
   { mnemonic := "math", format := .register, opcode := 0x50,
     fields := [page 0, op 3 .arith, reg 1 41, reg 2 36, reg 4 31],
     pieces := [.operand 0, .text ", $", .operand 1, .text ", $", .operand 2, .text " ",
       .operand 3, .text " $", .operand 4],
     flagBit := some 30 },
   { mnemonic := "set", format := .register, opcode := 0x51,
     fields := [channel 0, page 1, reg 2 36, reg 7 31, reg 3 26, reg 4 21, reg 5 16, reg 6 11],
     pieces := [.operand 0, .text ", ", .operand 1, .text ", $", .operand 2, .text ", $",
       .operand 3, .text ", $", .operand 4, .text ", $", .operand 5, .text ", $", .operand 6,
       .text ", $", .operand 7] },
   { mnemonic := "sync", format := .register, opcode := 0x52,
     fields := [page 0, reg 1 31],
     pieces := [.operand 0, .text ", $", .operand 1] },
   { mnemonic := "read", format := .register, opcode := 0x53,
     fields := [channel 0, page 1, op 2 .half, reg 3 41],
     pieces := [.operand 0, .text ", ", .operand 1, .text ", ", .operand 2, .text ", $",
       .operand 3] },
   { mnemonic := "wait", format := .register, opcode := 0x54,
     fields := [page 0, reg 1 31],
     pieces := [.operand 0, .text ", $", .operand 1],
     slots := 2 },
   { mnemonic := "bitw", format := .register, opcode := 0x55,
     fields := [page 0, reg 1 41, reg 2 36, op 3 .bitwise, reg 4 31],
     pieces := [.operand 0, .text ", $", .operand 1, .text ", $", .operand 2, .text " ",
       .operand 3, .text " $", .operand 4],
     flagBit := some 30 },
   { mnemonic := "memr", format := .register, opcode := 0x56,
     fields := [page 0, reg 1 41, reg 2 36],
     pieces := [.operand 0, .text ", $", .operand 1, .text ", $", .operand 2] },
   { mnemonic := "memw", format := .register, opcode := 0x57,
     fields := [page 0, reg 2 36, reg 1 31],
     pieces := [.operand 0, .text ", $", .operand 1, .text ", $", .operand 2] },
   { mnemonic := "setb", format := .register, opcode := 0x58,
     fields := [page 0, reg 2 36, reg 1 31],
     pieces := [.operand 0, .text ", $", .operand 1, .text ", $", .operand 2] }]

/-- The descriptor of a mnemonic. -/
def Descriptor.ofMnemonic? (mnemonic : String) : Option Descriptor :=
  table.find? (·.mnemonic = mnemonic)

/-- The descriptor of an opcode. -/
def Descriptor.ofOpcode? (opcode : Nat) : Option Descriptor :=
  table.find? (·.opcode = opcode)

/-- The memory slots of an instruction; an unknown one counts as one. -/
def slotsOf (mnemonic : String) : Nat :=
  match Descriptor.ofMnemonic? mnemonic with
  | some d => d.slots
  | none => 1

end PulseAsm
