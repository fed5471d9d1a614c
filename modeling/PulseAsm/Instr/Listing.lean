import PulseAsm.Instr.Basic

/-!
# Listings

A program as text: one row per instruction, remarks at a fixed column, and each
label on a row of its own, ahead of the first instruction whose address has
reached it. Labels past the last instruction close the listing.
-/

namespace PulseAsm

/-- The column at which remarks start, counted in bytes of the text. -/
def commentColumn : Nat := 48

/-- A piece of an instruction's pattern with the operand filled in. -/
def Piece.fill (operands : List Operand) : Piece → String
  | .text s => s
  | .operand index =>
    match operands[index]? with
    | some o => o.text
    | none => "?"

/-- An instruction as it is written, such as `regwi 0, $5, 7;`. -/
def Instr.text (i : Instr) : String :=
  let pieces := match Descriptor.ofMnemonic? i.mnemonic with
    | some d => d.pieces
    | none => []
  let operands := if pieces.isEmpty then "" else " " ++ String.join (pieces.map (·.fill i.operands))
  i.mnemonic ++ operands ++ (if i.updateFlags then " uf" else "") ++ ";"

/-- A row of a listing. -/
inductive Row where
  /-- A label. -/
  | label (name : String)
  /-- An instruction. -/
  | line (l : Line)

/-- Label rows, one per pending label. -/
def labelRows (pending : List (Nat × String)) : List Row := pending.map fun l => .label l.2

/-- The rows of lines and of pending labels, which are in the order of their addresses. -/
def listingRows : List Line → List (Nat × String) → List Row
  | [], pending => labelRows pending
  | l :: ls, pending =>
    labelRows (pending.takeWhile (·.1 ≤ l.addr)) ++
      .line l :: listingRows ls (pending.dropWhile (·.1 ≤ l.addr))

/-- The order of label rows: by address, and then by name. -/
def labelLE (a b : Nat × String) : Bool := a.1 < b.1 || (a.1 == b.1 && decide (a.2 ≤ b.2))

/-- Labels with their addresses in front, in the order of their rows. -/
def sortedLabels (labels : LabelTable) : List (Nat × String) :=
  (labels.map fun l => (l.2, l.1)).mergeSort labelLE

/-- A line as its row shows it. -/
def Line.text (l : Line) : String :=
  let row := "    " ++ l.instr.text
  match l.comment with
  | none => row
  | some c => row ++ "".pushn ' ' (max 1 (commentColumn - row.utf8ByteSize)) ++ "// " ++ c

/-- A row as text, with its line end. -/
def Row.text : Row → String
  | .label name => name ++ ":\n"
  | .line l => l.text ++ "\n"

/-- The listing of lines and labels. -/
def listing (lines : List Line) (labels : LabelTable) : String :=
  "// Program\n\n" ++ String.join ((listingRows lines (sortedLabels labels)).map Row.text)

/-- An operand with the name of its address in the place of a number. -/
def Operand.relabel (names : List (Nat × String)) : Operand → Operand
  | .value v =>
    if 0 ≤ v then
      match names.lookup v.toNat with
      | some name => .label name
      | none => .value v
    else .value v
  | o => o

/-- The indices of the operands of a mnemonic that are program addresses. -/
def addrOperands (mnemonic : String) : List Nat :=
  match Descriptor.ofMnemonic? mnemonic with
  | some d => (d.fields.filter (·.kind = .addr)).map (·.operand)
  | none => []

/-- An instruction with names in the place of the jump targets that have one, so
that a decoded program lists like the one it was built from. -/
def Instr.relabel (names : List (Nat × String)) (i : Instr) : Instr :=
  { i with operands := i.operands.mapIdx fun index o =>
      if index ∈ addrOperands i.mnemonic then o.relabel names else o }

end PulseAsm
