import PulseAsm.Binary
import PulseAsm.Proofs.Outcome
import Mathlib.Algebra.Ring.Nat

/-!
# Assembled images

Where the words of an image come from: assembling succeeds line by line
(`assemble_cons_eq_ok_iff`), and the image has a word for each slot of each line,
the instruction's own at the sum of the slots before it and a zero in each
further slot.
-/

namespace PulseAsm

/-- The memory slots that lines take. -/
def slotSum (lines : List Line) : ℕ := (lines.map fun l => slotsOf l.instr.mnemonic).sum

@[simp] theorem slotSum_nil : slotSum [] = 0 := rfl

@[simp] theorem slotSum_cons (l : Line) (lines : List Line) :
    slotSum (l :: lines) = slotsOf l.instr.mnemonic + slotSum lines := by simp [slotSum]

@[simp] theorem slotSum_append (l₁ l₂ : List Line) : slotSum (l₁ ++ l₂) = slotSum l₁ + slotSum l₂ := by
  simp [slotSum]

/-- An instruction takes one slot or two. -/
theorem slotsOf_cases (mnemonic : String) : slotsOf mnemonic = 1 ∨ slotsOf mnemonic = 2 := by
  have htable : ∀ d ∈ table, d.slots = 1 ∨ d.slots = 2 := by decide
  unfold slotsOf
  cases h : Descriptor.ofMnemonic? mnemonic with
  | none => exact Or.inl rfl
  | some d => exact htable d (List.mem_of_find?_eq_some h)

theorem slotsOf_of_ofMnemonic? {mnemonic : String} {d : Descriptor}
    (h : Descriptor.ofMnemonic? mnemonic = some d) : slotsOf mnemonic = d.slots := by
  simp only [slotsOf, h]

/-! ### Labels -/

/-- An operand with its label replaced by the address it has in the table. -/
def Operand.withAddress (labels : LabelTable) : Operand → Operand
  | .label name =>
    match labels.lookup name with
    | some a => .value a
    | none => .label name
  | o => o

/-- An instruction with its labels replaced by the addresses they have in the table. -/
def Instr.withAddresses (labels : LabelTable) (i : Instr) : Instr :=
  { i with operands := i.operands.map (·.withAddress labels) }

theorem Operand.resolve_eq_ok {labels : LabelTable} {addr : ℕ} {o o' : Operand}
    (h : o.resolve labels addr = .ok o') : o' = o.withAddress labels := by
  cases o with
  | label name =>
    simp only [resolve] at h
    cases hl : labels.lookup name with
    | none => simp [hl] at h
    | some a =>
      rw [hl] at h
      cases h
      simp [withAddress, hl]
  | value v => exact (Except.ok.inj h).symm
  | op o => exact (Except.ok.inj h).symm

/-- Resolving replaces labels by their addresses. -/
theorem Instr.resolve_eq_ok {labels : LabelTable} {addr : ℕ} {i j : Instr}
    (h : i.resolve labels addr = .ok j) : j = i.withAddresses labels := by
  obtain ⟨operands, hops, hj⟩ := bind_eq_ok_iff.mp h
  cases hj
  have hmap : operands = i.operands.map (·.withAddress labels) := by
    rw [← List.forall₂_eq_eq_eq, List.forall₂_map_right_iff]
    exact (mapM_eq_ok_iff.mp hops).flip.imp fun _ _ h => Operand.resolve_eq_ok h
  rw [hmap]
  rfl

theorem eq_map_of_mapM_resolve {lines : List Line} {labels : LabelTable} {is : List Instr}
    (h : lines.mapM (fun l => l.instr.resolve labels l.addr) = .ok is) :
    is = lines.map fun l => l.instr.withAddresses labels := by
  rw [← List.forall₂_eq_eq_eq, List.forall₂_map_right_iff]
  exact (mapM_eq_ok_iff.mp h).flip.imp fun _ _ hi => Instr.resolve_eq_ok hi

/-! ### Lines and words -/

theorem assemble_eq_ok_iff {lines : List Line} {labels : LabelTable} {words : List Word} :
    assemble lines labels = .ok words ↔
      ∃ is blocks, lines.mapM (fun l => l.instr.resolve labels l.addr) = .ok is ∧
        is.mapM Instr.words = .ok blocks ∧ words = blocks.flatten := by
  unfold assemble
  simp only [bind_eq_ok_iff]
  constructor
  · rintro ⟨is, his, blocks, hblocks, h⟩
    exact ⟨is, blocks, his, hblocks, (Except.ok.inj h).symm⟩
  · rintro ⟨is, blocks, his, hblocks, rfl⟩
    exact ⟨is, his, blocks, hblocks, rfl⟩

/-- Assembling takes the lines one by one. -/
theorem assemble_cons_eq_ok_iff {l : Line} {lines : List Line} {labels : LabelTable} {words : List Word} :
    assemble (l :: lines) labels = .ok words ↔
      ∃ i w rest, l.instr.resolve labels l.addr = .ok i ∧ encode i = .ok w ∧
        assemble lines labels = .ok rest ∧
        words = w :: (List.replicate (slotsOf i.mnemonic - 1) 0 ++ rest) := by
  simp only [assemble, bind_eq_ok_iff, mapM_eq_ok_iff, List.forall₂_cons_left_iff]
  constructor
  · rintro ⟨_, ⟨i, resolved, hi, hres, rfl⟩, blocks, hblocks, hwords⟩
    obtain ⟨ws, blocks, hws, hrest, rfl⟩ := List.forall₂_cons_left_iff.mp hblocks
    obtain ⟨w, hw, hws⟩ := bind_eq_ok_iff.mp hws
    cases hws
    cases hwords
    exact ⟨i, w, blocks.flatten, hi, hw, ⟨resolved, hres, blocks, hrest, rfl⟩, by simp⟩
  · rintro ⟨i, w, rest, hi, hw, ⟨resolved, hres, blocks, hblocks, hrest⟩, rfl⟩
    cases hrest
    refine ⟨i :: resolved, ⟨i, resolved, hi, hres, rfl⟩,
      (w :: List.replicate (slotsOf i.mnemonic - 1) 0) :: blocks, .cons ?_ hblocks, by simp [pure, Except.pure]⟩
    exact bind_eq_ok_iff.mpr ⟨w, hw, rfl⟩

/-- Assembling succeeds exactly if every line resolves and encodes. -/
theorem exists_assemble_iff {lines : List Line} {labels : LabelTable} :
    (∃ words, assemble lines labels = .ok words) ↔
      ∀ l ∈ lines, ∃ i w, l.instr.resolve labels l.addr = .ok i ∧ encode i = .ok w := by
  induction lines with
  | nil => exact iff_of_true ⟨[], rfl⟩ (List.forall_mem_nil _)
  | cons l lines ih =>
    rw [List.forall_mem_cons, ← ih]
    simp only [assemble_cons_eq_ok_iff]
    constructor
    · rintro ⟨words, i, w, rest, hi, hw, hrest, -⟩
      exact ⟨⟨i, w, hi, hw⟩, rest, hrest⟩
    · rintro ⟨⟨i, w, hi, hw⟩, rest, hrest⟩
      exact ⟨_, i, w, rest, hi, hw, hrest, rfl⟩

section Image

variable {lines pre post : List Line} {l : Line} {labels : LabelTable} {words : List Word}

/-- An image has a word for each slot. -/
theorem length_assemble (h : assemble lines labels = .ok words) : words.length = slotSum lines := by
  induction lines generalizing words with
  | nil =>
    cases h
    rfl
  | cons l lines ih =>
    obtain ⟨i, w, rest, hi, -, hrest, rfl⟩ := assemble_cons_eq_ok_iff.mp h
    have hm : i.mnemonic = l.instr.mnemonic := by rw [Instr.resolve_eq_ok hi]; rfl
    simp only [List.length_cons, List.length_append, List.length_replicate, ih hrest, slotSum_cons, hm]
    rcases slotsOf_cases l.instr.mnemonic with hs | hs <;> omega

/-- The word of an instruction stands at the sum of the slots before it, with a
zero in the second slot if it has one. -/
theorem getElem?_assemble (h : assemble (pre ++ l :: post) labels = .ok words) :
    ∃ w, encode (l.instr.withAddresses labels) = .ok w ∧ words[slotSum pre]? = some w ∧
      (slotsOf l.instr.mnemonic = 2 → words[slotSum pre + 1]? = some 0) := by
  induction pre generalizing words with
  | nil =>
    obtain ⟨i, w, rest, hi, hw, -, rfl⟩ := assemble_cons_eq_ok_iff.mp h
    have hi := Instr.resolve_eq_ok hi
    subst hi
    refine ⟨w, hw, rfl, fun hs => ?_⟩
    have hs : slotsOf (l.instr.withAddresses labels).mnemonic = 2 := hs
    simp [hs]
  | cons l' pre ih =>
    obtain ⟨i, w', rest, hi, -, hrest, rfl⟩ := assemble_cons_eq_ok_iff.mp h
    obtain ⟨w, hw, hget, hpad⟩ := ih hrest
    have hm : slotsOf i.mnemonic = slotsOf l'.instr.mnemonic := by rw [Instr.resolve_eq_ok hi]; rfl
    have hshift : ∀ k, (w' :: (List.replicate (slotsOf i.mnemonic - 1) 0 ++ rest))[slotsOf l'.instr.mnemonic + k]? =
        rest[k]? := by
      intro k
      rcases slotsOf_cases l'.instr.mnemonic with hs | hs
      · simp [hm, hs, Nat.add_comm 1 k]
      · simp [hm, hs, Nat.add_comm 2 k]
    refine ⟨w, hw, ?_, fun hs => ?_⟩
    · rw [slotSum_cons, hshift, hget]
    · rw [slotSum_cons, Nat.add_assoc, hshift, hpad hs]

/-- A word of an image belongs to a line, as its instruction or as the zero in its
second slot. -/
theorem mem_assemble (h : assemble lines labels = .ok words) {a : ℕ} {w : Word} (ha : words[a]? = some w) :
    ∃ pre l post, lines = pre ++ l :: post ∧
      (a = slotSum pre ∨ a = slotSum pre + 1 ∧ slotsOf l.instr.mnemonic = 2 ∧ w = 0) := by
  induction lines generalizing words a with
  | nil =>
    cases h
    cases ha
  | cons l lines ih =>
    obtain ⟨i, w', rest, hi, -, hrest, rfl⟩ := assemble_cons_eq_ok_iff.mp h
    have hm : slotsOf i.mnemonic = slotsOf l.instr.mnemonic := by rw [Instr.resolve_eq_ok hi]; rfl
    -- past the slots of the first line, the word belongs to a later one
    have hlater : ∀ k, rest[k]? = some w → ∃ pre l' post, l :: lines = pre ++ l' :: post ∧
        (slotsOf l.instr.mnemonic + k = slotSum pre ∨
          slotsOf l.instr.mnemonic + k = slotSum pre + 1 ∧ slotsOf l'.instr.mnemonic = 2 ∧ w = 0) := by
      intro k hk
      obtain ⟨pre, l', post, hlines, hcase⟩ := ih hrest hk
      refine ⟨l :: pre, l', post, by rw [hlines]; rfl, ?_⟩
      rw [slotSum_cons, Nat.add_assoc]
      rcases hcase with rfl | ⟨rfl, hcase⟩
      · exact Or.inl rfl
      · exact Or.inr ⟨rfl, hcase⟩
    cases a with
    | zero => exact ⟨[], l, lines, rfl, Or.inl rfl⟩
    | succ a =>
      rw [List.getElem?_cons_succ] at ha
      rcases slotsOf_cases l.instr.mnemonic with hs | hs
      · rw [hm, hs] at ha
        have := hlater a (by simpa using ha)
        rwa [hs, Nat.add_comm] at this
      · rw [hm, hs] at ha
        cases a with
        | zero =>
          refine ⟨[], l, lines, rfl, Or.inr ⟨rfl, hs, ?_⟩⟩
          simpa using ha.symm
        | succ a =>
          have := hlater a (by simpa using ha)
          rwa [hs, Nat.add_comm] at this

end Image

end PulseAsm
