import PulseAsm.Increasing
import PulseAsm.Instr.Decoding
import PulseAsm.Instr.Listing

/-!
# Analysis of program images

A linear sweep over an image decodes every word in turn, stepping over the
second slot of an instruction of two; a word that does not decode is kept with
its error. The edges of the control flow follow from the instructions, and what
is reachable is found from address 0 along the edges.
-/

namespace PulseAsm

/-- A word of an image and what the sweep made of it. -/
structure Slot where
  /-- The address. -/
  addr : Nat
  /-- The word. -/
  word : Word
  /-- The instruction; there is none in a slot that does not decode or that
  belongs to the instruction before it. -/
  instr : Option Instr
  /-- Why the word does not decode. -/
  error : Option Error

/-- The address behind a slot: behind the instruction that starts there, or behind the
word. -/
def Slot.next (s : Slot) : Nat :=
  s.addr + match s.instr with
    | some i => slotsOf i.mnemonic
    | none => 1

/-- How control passes along an edge. -/
inductive EdgeKind where
  /-- To the next instruction. -/
  | fallthrough
  /-- To the target of a jump. -/
  | condBranch
  deriving DecidableEq

/-- The name of a kind of edge. -/
def EdgeKind.name : EdgeKind → String
  | .fallthrough => "fallthrough"
  | .condBranch => "cond_branch"

/-- A way that control can take. -/
structure Edge where
  /-- The address of the instruction. -/
  source : Nat
  /-- The address that is reached. -/
  target : Nat
  /-- How it is reached. -/
  kind : EdgeKind
  deriving DecidableEq

/-- The target of a jump. -/
def Instr.jumpTarget? (i : Instr) : Option Nat := do
  let d ← Descriptor.ofMnemonic? i.mnemonic
  let f ← d.fields.find? (·.kind = .addr)
  match ← i.operands[f.operand]? with
  | .value v => if 0 ≤ v ∧ v < 0x100000000 then some v.toNat else none
  | _ => none

namespace Analysis

/-- The slots of words from an address on, of which the first `pad` belong to the
instruction before them. -/
def sweepFrom : Nat → Nat → List Word → List Slot
  | _, _, [] => []
  | addr, pad + 1, w :: ws => ⟨addr, w, none, none⟩ :: sweepFrom (addr + 1) pad ws
  | addr, 0, w :: ws =>
    match decode w with
    | .ok i => ⟨addr, w, some i, none⟩ :: sweepFrom (addr + 1) (slotsOf i.mnemonic - 1) ws
    | .error e => ⟨addr, w, none, some e⟩ :: sweepFrom (addr + 1) 0 ws

/-- The slots of an image. -/
def sweep (words : List Word) : List Slot := sweepFrom 0 0 words

/-- The edges of the instruction at an address, in an image of `size` words. -/
def instrEdges (size addr : Nat) (i : Instr) : List Edge :=
  let next := addr + slotsOf i.mnemonic
  (match i.jumpTarget? with
    | some t => [⟨addr, t, .condBranch⟩]
    | none => []) ++
  (if i.mnemonic ≠ "end" ∧ next < size then [⟨addr, next, .fallthrough⟩] else [])

/-- The edges of slots. -/
def edges (size : Nat) (slots : List Slot) : List Edge :=
  slots.flatMap fun s =>
    match s.instr with
    | some i => instrEdges size s.addr i
    | none => []

/-- The targets of the jumps, in increasing order. -/
def jumpTargets (es : List Edge) : List Nat :=
  increasing ((es.filter (·.kind = .condBranch)).map (·.target))

/-- The name of a jump target. -/
def targetName (a : Nat) : String := s!"L{a}"

/-- The addresses that an address leads to in one step. -/
def successors (es : List Edge) (a : Nat) : List Nat :=
  (es.filter (·.source = a)).map (·.target)

/-- Once an address is seen, the edges from it are no longer ahead of the search. -/
theorem length_edges_ahead (es : List Edge) {seen : List Nat} {a : Nat} (h : a ∉ seen) :
    (successors es a).length + (es.filter (·.source ∉ insertIncreasing a seen)).length =
      (es.filter (·.source ∉ seen)).length := by
  simp only [successors, List.length_map, ← List.countP_eq_length_filter, mem_insertIncreasing]
  induction es with
  | nil => rfl
  | cons e es ih =>
    simp only [List.countP_cons, decide_eq_true_eq]
    by_cases hsource : e.source = a
    · rw [if_pos hsource, if_neg (by simp [hsource]), if_pos (hsource ▸ h)]
      omega
    · rw [if_neg hsource]
      simp only [hsource, false_or]
      omega

/-- The addresses that are found from a queue along edges, together with those that
have been `seen`. An address that was seen is passed over. Any other is seen then, and
what it leads to is put behind the queue, unless that was seen. -/
def search (es : List Edge) (seen : List Nat) : List Nat → List Nat
  | [] => seen
  | a :: queue =>
    if a ∈ seen then search es seen queue
    else
      let found := insertIncreasing a seen
      search es found (queue ++ (successors es a).filter (· ∉ found))
termination_by queue => queue.length + (es.filter (·.source ∉ seen)).length
decreasing_by
  · simp
  · rename_i hnew
    have hle := List.length_filter_le (· ∉ insertIncreasing a seen) (successors es a)
    have hahead := length_edges_ahead es hnew
    simp only [List.length_append, List.length_cons]
    omega

/-- The addresses that are reachable from address 0, in increasing order. -/
def reachable (size : Nat) (es : List Edge) : List Nat :=
  if size = 0 then [] else search es [] [0]

end Analysis

/-- What is found out about an image. -/
structure Report where
  /-- A slot per word. -/
  slots : List Slot
  /-- The edges of the control flow. -/
  edges : List Edge
  /-- The jump targets with their names, in increasing order. -/
  labels : List (Nat × String)
  /-- The addresses that are reachable from address 0, in increasing order. -/
  reachable : List Nat

/-- What there is to find out about an image, addresses being numbers of any size. -/
def analyze (words : List Word) : Report :=
  let slots := Analysis.sweep words
  let edges := Analysis.edges words.length slots
  { slots
    edges
    labels := (Analysis.jumpTargets edges).map fun a => (a, Analysis.targetName a)
    reachable := Analysis.reachable words.length edges }

/-- Analyse an image. The sweep keeps its addresses in 32 bits, and every step to the
next one is checked: there is no report if one of them does not fit. -/
def analyze? (words : List Word) : Option Report :=
  let r := analyze words
  if r.slots.all (·.next < 0x100000000) then some r else none

end PulseAsm
