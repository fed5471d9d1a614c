import PulseAsm.Analysis.Report
import PulseAsm.Json.Printer
import PulseAsm.Text.Radix

/-!
# Reports as text

A report as a listing, with the words that do not decode and the number of
unreachable instructions below it; or as JSON.
-/

namespace PulseAsm

open Text

/-- An operand, tagged by its kind. -/
def Operand.toJson : Operand → Json
  | .value v => .obj [("Value", .int v)]
  | .op o => .obj [("Op", .str o.name)]
  | .label name => .obj [("Label", .str name)]

/-- An instruction as an object. -/
def Instr.toJson (i : Instr) : Json :=
  .obj [("mnemonic", .str i.mnemonic), ("operands", .arr (i.operands.map Operand.toJson)),
    ("update_flags", .bool i.updateFlags)]

/-- A slot as an object. -/
def Slot.toJson (s : Slot) : Json :=
  .obj [("addr", .int s.addr), ("word", .int s.word.toNat),
    ("instr", match s.instr with
      | some i => i.toJson
      | none => .null),
    ("error", match s.error with
      | some e => .str e.message
      | none => .null)]

/-- An edge as an object. -/
def Edge.toJson (e : Edge) : Json :=
  .obj [("from", .int e.source), ("to", .int e.target), ("kind", .str e.kind.name)]

namespace Report

/-- A report as an object. -/
def toJson (r : Report) : Json :=
  .obj [("slots", .arr (r.slots.map Slot.toJson)), ("edges", .arr (r.edges.map Edge.toJson)),
    ("labels", .obj (r.labels.map fun (a, name) => (toString a, .str name))),
    ("reachable", .arr (r.reachable.map fun (a : Nat) => .int a))]

/-- The labels of a report as a list of objects. -/
def labelsJson (r : Report) : Json :=
  .arr (r.labels.map fun (a, name) => .obj [("addr", .int a), ("name", .str name)])

/-- The instructions of a report as lines, with their addresses as remarks, and with
`names` in the place of jump targets. -/
def lines (r : Report) (names : List (Nat × String)) : List Line :=
  (r.slots.filterMap fun s => s.instr.map fun i => (s.addr, i)).zipIdx.map fun ((addr, i), k) =>
    ⟨i.relabel names, addr, k, some (Radix.hexAtLeast 4 addr)⟩

/-- The words that do not decode, as remarks. -/
def undecodable (r : Report) : String :=
  let rows := r.slots.filterMap fun s => s.error.map fun e =>
    s!"// {Radix.hexAtLeast 4 s.addr}: .word {Radix.hex 16 s.word.toNat} ({e.message})\n"
  if rows.isEmpty then "" else "\n// Undecodable words\n" ++ String.join rows

/-- The number of unreachable instructions, as a remark. -/
def unreachable (r : Report) : String :=
  let dead := (r.slots.filter fun s => s.instr.isSome && s.addr ∉ r.reachable).length
  if dead = 0 then "" else s!"\n// {dead} instruction(s) unreachable from address 0\n"

/-- A report as a listing; jump targets have names if `named`. -/
def text (r : Report) (named : Bool) : String :=
  let names := if named then r.labels else []
  listing (r.lines names) (names.map fun (a, name) => (name, a)) ++ r.undecodable ++ r.unreachable

end Report

end PulseAsm
