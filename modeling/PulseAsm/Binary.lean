import PulseAsm.Instr.Encoding
import PulseAsm.LittleEndian

/-!
# Program images

Assembling turns lines and a label table into words. Every label is resolved
before any word is made, so a missing label is reported ahead of any operand
that does not fit. An instruction of two slots is followed by a zero word.

The words leave as text, one numeral to a line, or as bytes, least significant
first; `ofBytes?` is the way back.
-/

namespace PulseAsm

open Text

/-- An operand with its label replaced by the address that the label is bound to. -/
def Operand.resolve (labels : LabelTable) (addr : Nat) : Operand → Except Error Operand
  | .label name =>
    match labels.lookup name with
    | some target => .ok (.value target)
    | none => .error (.undefinedLabel name addr)
  | o => .ok o

/-- An instruction at an address with its labels resolved. -/
def Instr.resolve (labels : LabelTable) (addr : Nat) (i : Instr) : Except Error Instr := do
  let operands ← i.operands.mapM (·.resolve labels addr)
  return { i with operands }

/-- The words of an instruction: its own, and a zero for each further slot. -/
def Instr.words (i : Instr) : Except Error (List Word) := do
  let w ← encode i
  return w :: List.replicate (slotsOf i.mnemonic - 1) 0

/-- The words of lines. -/
def assemble (lines : List Line) (labels : LabelTable) : Except Error (List Word) := do
  let resolved ← lines.mapM fun l => l.instr.resolve labels l.addr
  let words ← resolved.mapM Instr.words
  return words.flatten

namespace Image

/-- One hexadecimal numeral of 16 digits per word. -/
def hex (words : List Word) : String :=
  "\n".intercalate (words.map fun w => Radix.hex 16 w.toNat)

/-- One binary numeral of 64 digits per word. -/
def bin (words : List Word) : String :=
  "\n".intercalate (words.map fun w => Radix.bin 64 w.toNat)

/-- Eight bytes per word. -/
def toBytes (words : List Word) : List UInt8 :=
  words.flatMap fun w => littleEndian 8 w.toNat

/-- The words of a list of bytes; a rest of fewer than eight is dropped. -/
def wordsOfBytes : List UInt8 → List Word
  | b0 :: b1 :: b2 :: b3 :: b4 :: b5 :: b6 :: b7 :: rest =>
    BitVec.ofNat 64 (ofLittleEndian [b0, b1, b2, b3, b4, b5, b6, b7]) :: wordsOfBytes rest
  | _ => []

/-- The words of an image whose length is a multiple of eight bytes. -/
def ofBytes? (bytes : List UInt8) : Option (List Word) :=
  if bytes.length % 8 = 0 then some (wordsOfBytes bytes) else none

end Image

end PulseAsm
