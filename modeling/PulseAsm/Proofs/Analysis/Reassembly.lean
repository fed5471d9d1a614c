import PulseAsm.Analysis.Text
import PulseAsm.Proofs.Analysis.Sweep
import PulseAsm.Proofs.Instr.NormalForm
import Mathlib.Data.List.Nodup

/-!
# Disassembling and assembling again

A report names the targets of all jumps, so its instructions can be listed with
labels and assembled again with the table of these names (`reassemble`). If every
word of the image decodes, this succeeds, and it gives the image back with each
instruction in its normal form and zeros in second slots; an image that is cut off
before the second slot of its last instruction is completed.

All that reassembling uses of an image are the instructions that the sweep finds
(`reassemble_congr`), and these are the same before and after, so doing it again
changes nothing.
-/

namespace PulseAsm

namespace Analysis

/-! ### Names of jump targets -/

theorem targetName_injective : Function.Injective targetName := by
  intro a b h
  have hrepr : a.repr = b.repr := (String.append_right_inj "L").mp h
  rw [← Nat.ofDigitChars_ten_toDigits (n := a), ← Nat.ofDigitChars_ten_toDigits (n := b), ← Nat.toList_repr,
    ← Nat.toList_repr, hrepr]

/-- The jump targets are those of the instructions that were found. -/
theorem jumpTargets_edges (size : ℕ) (slots : List Slot) :
    jumpTargets (edges size slots) = increasing ((found slots).filterMap fun p => p.2.jumpTarget?) := by
  have hedges : ((edges size slots).filter (·.kind = .condBranch)).map (·.target) =
      (found slots).filterMap fun p => p.2.jumpTarget? := by
    unfold edges found
    induction slots with
    | nil => rfl
    | cons s slots ih =>
      rw [List.flatMap_cons, List.filter_append, List.map_append, ih, List.filterMap_cons]
      cases s.instr with
      | none => rfl
      | some i =>
        unfold instrEdges
        cases hj : i.jumpTarget? <;> by_cases hend : i.mnemonic ≠ "end" ∧ s.addr + slotsOf i.mnemonic < size <;>
          simp [hj, hend]
  rw [jumpTargets, hedges]

/-- The names of the jump targets differ. -/
theorem nodup_names_analyze (words : List Word) : ((analyze words).labels.map (·.2)).Nodup := by
  have hsorted : (jumpTargets (edges words.length (sweep words))).Pairwise (· < ·) := pairwise_increasing _
  have hnames : (analyze words).labels.map (·.2) = (jumpTargets (edges words.length (sweep words))).map targetName := by
    simp [analyze, Function.comp_def]
  rw [hnames]
  exact .map targetName_injective (hsorted.imp Nat.ne_of_lt)

/-- A jump target that was found has a name. -/
theorem lookup_labels_analyze {words : List Word} {p : ℕ × Instr} (hp : p ∈ found (sweep words)) {a : ℕ}
    (ha : p.2.jumpTarget? = some a) : (analyze words).labels.lookup a = some (targetName a) := by
  have hmem : a ∈ jumpTargets (edges words.length (sweep words)) := by
    rw [jumpTargets_edges]
    exact mem_increasing.mpr (List.mem_filterMap.mpr ⟨p, hp, ha⟩)
  have hlookup : ∀ l : List ℕ, a ∈ l → (l.map fun a => (a, targetName a)).lookup a = some (targetName a) := by
    intro l hl
    induction l with
    | nil => cases hl
    | cons b l ih =>
      by_cases hb : a = b
      · simp [hb]
      · rw [List.map_cons, List.lookup_cons, beq_eq_false_iff_ne.mpr hb]
        exact ih ((List.mem_cons.mp hl).resolve_left hb)
  exact hlookup _ hmem

end Analysis

/-! ### Names in the place of addresses, and back -/

theorem mem_of_lookup_eq_some {α β : Type} [BEq α] [LawfulBEq α] {l : List (α × β)} {a : α} {b : β}
    (h : l.lookup a = some b) : (a, b) ∈ l := by
  obtain ⟨l₁, l₂, rfl, -⟩ := List.lookup_eq_some_iff.mp h
  simp

/-- Names that differ lead back to what they name. -/
theorem lookup_swap_of_mem {α β : Type} [BEq β] [LawfulBEq β] {names : List (α × β)} (h : (names.map (·.2)).Nodup)
    {a : α} {name : β} (hmem : (a, name) ∈ names) : (names.map Prod.swap).lookup name = some a := by
  induction names with
  | nil => cases hmem
  | cons p names ih =>
    obtain ⟨b, other⟩ := p
    rw [List.map_cons, List.nodup_cons] at h
    rw [List.map_cons, Prod.swap_prod_mk, List.lookup_cons]
    rcases List.mem_cons.mp hmem with heq | hrest
    · cases heq
      simp
    · have hne : name ≠ other := by
        rintro rfl
        exact h.1 (List.mem_map.mpr ⟨(a, name), hrest, rfl⟩)
      rw [beq_eq_false_iff_ne.mpr hne]
      exact ih h.2 hrest

theorem Operand.resolve_relabel {names : List (ℕ × String)} (h : (names.map (·.2)).Nodup) (addr : ℕ) {o : Operand}
    (ho : ∀ name, o ≠ .label name) : (o.relabel names).resolve (names.map Prod.swap) addr = .ok o := by
  cases o with
  | label name => exact absurd rfl (ho name)
  | op o => rfl
  | value v =>
    simp only [relabel]
    by_cases hv : 0 ≤ v
    · rw [if_pos hv]
      cases hname : names.lookup v.toNat with
      | none => rfl
      | some name =>
        simp only [resolve, lookup_swap_of_mem h (mem_of_lookup_eq_some hname), Int.toNat_of_nonneg hv]
    · rw [if_neg hv]
      rfl

/-- Resolving undoes relabelling. -/
theorem Instr.resolve_relabel {names : List (ℕ × String)} (h : (names.map (·.2)).Nodup) (addr : ℕ) {i : Instr}
    (hi : ∀ o ∈ i.operands, ∀ name, o ≠ .label name) :
    (i.relabel names).resolve (names.map Prod.swap) addr = .ok i := by
  refine bind_eq_ok_iff.mpr ⟨i.operands, mapM_eq_ok_iff.mpr ?_, rfl⟩
  refine List.forall₂_iff_get.mpr ⟨by simp [relabel], fun k h₁ h₂ => ?_⟩
  have hk : ∀ name, i.operands[k] ≠ .label name := hi _ (List.getElem_mem h₂)
  simp only [relabel, List.get_eq_getElem, List.getElem_mapIdx]
  split
  · exact Operand.resolve_relabel h addr hk
  · cases ho : i.operands[k] with
    | label name => exact absurd ho (hk name)
    | value v => rfl
    | op o => rfl

/-! ### Decoded instructions -/

theorem Instr.jumpTarget?_eq_some {i : Instr} {d : Descriptor} {f : Field} {a : ℕ}
    (hd : Descriptor.ofMnemonic? i.mnemonic = some d) (hf : d.fields.find? (·.kind = .addr) = some f)
    (ha : i.operands[f.operand]? = some (.value a)) (hlt : (a : ℤ) < 0x100000000) : i.jumpTarget? = some a := by
  unfold Instr.jumpTarget?
  rw [hd, Option.bind_eq_bind, Option.bind_some, hf, Option.bind_eq_bind, Option.bind_some, ha, Option.bind_eq_bind,
    Option.bind_some]
  simp [hlt]

/-- The target of a jump is an address operand. -/
theorem Instr.exists_operand_of_jumpTarget? {i : Instr} {t : ℕ} (h : i.jumpTarget? = some t) :
    t < 2 ^ 32 ∧ ∃ k ∈ addrOperands i.mnemonic, i.operands[k]? = some (.value t) := by
  obtain ⟨d, hd, h⟩ := Option.bind_eq_some_iff.mp h
  obtain ⟨f, hf, h⟩ := Option.bind_eq_some_iff.mp h
  obtain ⟨o, ho, h⟩ := Option.bind_eq_some_iff.mp h
  have hkind : f.kind = .addr := by simpa using List.find?_some hf
  have hoperand : f.operand ∈ addrOperands i.mnemonic := by
    rw [addrOperands, hd]
    exact List.mem_map_of_mem (List.mem_filter.mpr ⟨List.mem_of_find?_eq_some hf, decide_eq_true hkind⟩)
  cases o with
  | value v =>
    simp only [Option.ite_none_right_eq_some, Option.some.injEq] at h
    obtain rfl : v = t := by omega
    exact ⟨by omega, f.operand, hoperand, ho⟩
  | op | label => cases h

/-- No jump has two targets. -/
theorem table_addresses_unique :
    ∀ d ∈ table, ∀ f ∈ d.fields, ∀ g ∈ d.fields, f.kind = .addr → g.kind = .addr → f = g := by decide

section Decoded

variable {w : Word} {i : Instr}

/-- A decoded instruction is its own folded form. -/
theorem folded_of_decode (h : decode w = .ok i) : i.folded = i := by
  have hback := decode_of_encode (encode_of_decode h)
  rw [decode_normalForm, h] at hback
  exact (Except.ok.inj hback).symm

/-- A decoded instruction has no labels. -/
theorem ne_label_of_decode (h : decode w = .ok i) : ∀ o ∈ i.operands, ∀ name, o ≠ .label name := by
  obtain ⟨d, -, -, -, -, hops⟩ := decode_eq_ok_iff.mp h
  rintro o ho name rfl
  obtain ⟨k, -, hread⟩ := exists_of_mem_mapM hops ho
  unfold Descriptor.decodeOperand at hread
  cases hf : d.fieldFor? k with
  | none => simp [hf] at hread
  | some f =>
    simp only [hf, Field.decode] at hread
    split at hread
    · split at hread <;> cases hread
    · cases hread

/-- The address operand of a decoded instruction is the target of its jump. -/
theorem jumpTarget?_of_decode (h : decode w = .ok i) {k : ℕ} (hk : k ∈ addrOperands i.mnemonic) :
    ∃ a : ℕ, i.operands[k]? = some (.value a) ∧ i.jumpTarget? = some a := by
  obtain ⟨d, hd, -, hm, -, hops⟩ := decode_eq_ok_iff.mp h
  have hlookup := Descriptor.ofMnemonic?_eq_some_iff.mpr ⟨hd, hm.symm⟩
  simp only [addrOperands, hlookup, List.mem_map, List.mem_filter, decide_eq_true_eq] at hk
  obtain ⟨f, ⟨hf, haddr⟩, rfl⟩ := hk
  have hunique := table_addresses_unique d hd
  -- the field is the only address field, and so the first of its operand
  have hfirst : d.fields.find? (·.kind = .addr) = some f := by
    have hsome : (d.fields.find? (·.kind = .addr)).isSome := List.find?_isSome.mpr ⟨f, hf, decide_eq_true haddr⟩
    obtain ⟨g, hg⟩ := Option.isSome_iff_exists.mp hsome
    rw [hg, hunique g (List.mem_of_find?_eq_some hg) f hf (by simpa using List.find?_some hg) haddr]
  have hread := Descriptor.decodeOperand_of_decodeOperands hops (table_operand_lt_arity d hd f hf)
  obtain ⟨g, hg⟩ := Descriptor.exists_fieldFor? hf
  obtain ⟨hgmem, hoperand⟩ := Descriptor.mem_fields_of_fieldFor? hg
  have hgaddr : g.kind = .addr := by rw [(wellFormed_of_mem_table d hd).kind g hgmem f hf hoperand, haddr]
  rw [Descriptor.decodeOperand_of_fieldFor? hg, hunique g hgmem f hf hgaddr haddr] at hread
  have hvalue : i.operands[f.operand]? = some (.value (f.extract w)) := by
    have hlt : f.operand < i.operands.length := by
      rw [Descriptor.length_of_decodeOperands hops]
      exact table_operand_lt_arity d hd f hf
    simp only [Field.decode, haddr] at hread
    rw [List.getD, List.getElem?_eq_getElem hlt, Option.getD_some] at hread
    rw [List.getElem?_eq_getElem hlt, ← Except.ok.inj hread]
  have hbound : (f.extract w : ℤ) < 0x100000000 := by
    have hlt := f.extract_lt w
    rw [(wellFormed_of_mem_table d hd).width f hf, haddr] at hlt
    simp only [FieldKind.width, addrWidth] at hlt
    omega
  exact ⟨f.extract w, hvalue, Instr.jumpTarget?_eq_some hlookup hfirst hvalue hbound⟩

/-- The jumps of a decoded instruction go where its address operands say. -/
theorem jumpTarget?_eq_some_iff_of_decode (h : decode w = .ok i) {t : ℕ} :
    i.jumpTarget? = some t ↔ ∃ k ∈ addrOperands i.mnemonic, i.operands[k]? = some (.value t) := by
  constructor
  · exact fun htarget => (Instr.exists_operand_of_jumpTarget? htarget).2
  · rintro ⟨k, hk, hvalue⟩
    obtain ⟨a, ha, htarget⟩ := jumpTarget?_of_decode h hk
    rw [hvalue, Option.some.injEq, Operand.value.injEq, Nat.cast_inj] at ha
    rw [htarget, ha]

end Decoded

/-! ### Sweeps without an undecodable word -/

/-- The instructions of a report in slot order, with names in the place of jump targets,
assembled with the table of these names. -/
def reassemble (words : List Word) : Except Error (List Word) :=
  let r := analyze words
  assemble (r.lines r.labels) (r.labels.map Prod.swap)

/-- Nothing but the instructions that were found counts. -/
theorem reassemble_congr {words words' : List Word}
    (h : Analysis.found (Analysis.sweep words) = Analysis.found (Analysis.sweep words')) :
    reassemble words = reassemble words' := by
  have hlabels : (analyze words).labels = (analyze words').labels := by
    simp only [analyze, Analysis.jumpTargets_edges, h]
  have hlines : ∀ names, (analyze words).lines names = (analyze words').lines names := by
    intro names
    have hdef : ∀ words, (analyze words).lines names = (Analysis.found (Analysis.sweep words)).zipIdx.map
        fun e => ⟨e.1.2.relabel names, e.1.1, e.2, some (Text.Radix.hexAtLeast 4 e.1.1)⟩ := fun _ => rfl
    rw [hdef, hdef, h]
  simp only [reassemble, hlabels, hlines]

namespace Analysis

/-- The word that a slot is assembled to again. -/
def rewritten (s : Slot) : Word :=
  match s.instr with
  | some _ => normalForm s.word
  | none => 0

/-- How many words are missing at the end of an image, of which the first `pad` belong
to the instruction before them. -/
def missingWords : ℕ → List Word → ℕ
  | pad, [] => pad
  | pad + 1, _ :: ws => missingWords pad ws
  | 0, w :: ws =>
    match decode w with
    | .ok i => missingWords (slotsOf i.mnemonic - 1) ws
    | .error _ => missingWords 0 ws

/-- Whether slots end in the first word of an instruction of two. -/
def cutOff (slots : List Slot) : Bool :=
  match slots.getLast?.bind (·.instr) with
  | some i => slotsOf i.mnemonic = 2
  | none => false

theorem cutOff_iff {slots : List Slot} :
    cutOff slots ↔ ∃ s i, slots.getLast? = some s ∧ s.instr = some i ∧ slotsOf i.mnemonic = 2 := by
  unfold cutOff
  cases hi : slots.getLast?.bind (·.instr) with
  | none =>
    refine iff_of_false Bool.false_ne_true ?_
    rintro ⟨s, i, hs, hinstr, -⟩
    rw [Option.bind_eq_some_iff.mpr ⟨s, hs, hinstr⟩] at hi
    cases hi
  | some i =>
    rw [decide_eq_true_eq]
    obtain ⟨s, hs, hinstr⟩ := Option.bind_eq_some_iff.mp hi
    constructor
    · exact fun hslots => ⟨s, i, hs, hinstr, hslots⟩
    · rintro ⟨s', i', hs', hinstr', hslots⟩
      rw [Option.bind_eq_some_iff.mpr ⟨s', hs', hinstr'⟩, Option.some.injEq] at hi
      rwa [← hi]

theorem cutOff_cons_sweepFrom (s : Slot) {a pad : ℕ} {words : List Word} (h : words ≠ []) :
    cutOff (s :: sweepFrom a pad words) = cutOff (sweepFrom a pad words) := by
  have hne : sweepFrom a pad words ≠ [] := fun hnil => h (by rw [← map_word_sweepFrom a pad words, hnil, List.map_nil])
  obtain ⟨s', slots, hslots⟩ := List.exists_cons_of_ne_nil hne
  rw [hslots, cutOff, cutOff, List.getLast?_cons_cons]

/-- At most one word is missing, and only after the first word of an instruction of two. -/
theorem missingWords_eq {a pad : ℕ} {words : List Word} (hpad : pad ≤ 1) (hend : words = [] → pad = 0) :
    missingWords pad words = if cutOff (sweepFrom a pad words) then 1 else 0 := by
  fun_induction sweepFrom a pad words with
  | case1 => simp [missingWords, cutOff, hend rfl]
  | case2 a pad w ws ih =>
    rw [missingWords, ih (by omega) (by omega)]
    by_cases hws : ws = []
    · simp [hws, cutOff, sweepFrom]
    · rw [cutOff_cons_sweepFrom _ hws]
  | case3 a w ws i hi ih =>
    simp only [missingWords, hi]
    by_cases hws : ws = []
    · rcases slotsOf_cases i.mnemonic with hs | hs <;> simp [hws, cutOff, sweepFrom, missingWords, hs]
    · rw [cutOff_cons_sweepFrom _ hws]
      exact ih (by rcases slotsOf_cases i.mnemonic with hs | hs <;> omega) (fun h => absurd h hws)
  | case4 a w ws e he ih =>
    simp only [missingWords, he]
    by_cases hws : ws = []
    · simp [hws, cutOff, sweepFrom, missingWords]
    · rw [cutOff_cons_sweepFrom _ hws]
      exact ih (Nat.zero_le 1) (fun _ => rfl)

theorem decode_of_mem_sweepFrom {a pad : ℕ} {words : List Word} {s : Slot} (hs : s ∈ sweepFrom a pad words)
    {i : Instr} (hi : s.instr = some i) : decode s.word = .ok i := by
  fun_induction sweepFrom a pad words with
  | case1 => cases hs
  | case2 a pad w ws ih =>
    rcases List.mem_cons.mp hs with rfl | hs
    · cases hi
    · exact ih hs
  | case3 a w ws j hj ih =>
    rcases List.mem_cons.mp hs with rfl | hs
    · cases hi
      exact hj
    · exact ih hs
  | case4 a w ws e _ ih =>
    rcases List.mem_cons.mp hs with rfl | hs
    · cases hi
    · exact ih hs

theorem map_addr_sweep (words : List Word) : (sweep words).map (·.addr) = List.range words.length := by
  rw [List.range_eq_range']
  exact map_addr_sweepFrom 0 0 words

theorem length_sweep (words : List Word) : (sweep words).length = words.length := by
  rw [← List.length_map, sweep, map_word_sweepFrom]

/-- A slot stands at its address. -/
theorem getElem?_sweep_addr {words : List Word} {s : Slot} (hs : s ∈ sweep words) :
    (sweep words)[s.addr]? = some s := by
  obtain ⟨k, hk, rfl⟩ := List.getElem_of_mem hs
  have haddr : (sweep words)[k].addr = k := by
    have hk' : k < ((sweep words).map (·.addr)).length := by rwa [List.length_map]
    have hmap : ((sweep words).map (·.addr))[k] = k := by simp [map_addr_sweep]
    rwa [List.getElem_map] at hmap
  rw [haddr, List.getElem?_eq_getElem hk]

theorem decode_of_mem_found {words : List Word} {p : ℕ × Instr} (hp : p ∈ found (sweep words)) :
    ∃ w, decode w = .ok p.2 := by
  obtain ⟨s, hs, hp⟩ := List.mem_filterMap.mp hp
  obtain ⟨i, hi, rfl⟩ := Option.map_eq_some_iff.mp hp
  exact ⟨s.word, decode_of_mem_sweepFrom hs hi⟩

section Clean

variable {a pad : ℕ} {words : List Word} (hclean : ∀ s ∈ sweepFrom a pad words, s.error = none)
include hclean

/-- The instructions stand one after the other. -/
theorem found_sweepFrom :
    found (sweepFrom a pad words) = placeFrom (a + pad) ((found (sweepFrom a pad words)).map (·.2)) := by
  fun_induction sweepFrom a pad words with
  | case1 => rfl
  | case2 a pad w ws ih =>
    have hrest := ih (List.forall_mem_cons.mp hclean).2
    rw [show a + (pad + 1) = a + 1 + pad by omega]
    exact hrest
  | case3 a w ws i _ ih =>
    have hrest := ih (List.forall_mem_cons.mp hclean).2
    have hslots : a + 1 + (slotsOf i.mnemonic - 1) = a + slotsOf i.mnemonic := by
      rcases slotsOf_cases i.mnemonic with hs | hs <;> omega
    rw [hslots] at hrest
    simp only [found, List.filterMap_cons, Option.map_some, List.map_cons, placeFrom, Nat.add_zero] at hrest ⊢
    rw [← hrest]
  | case4 a w ws e _ _ => cases hclean _ (List.mem_cons_self ..)

/-- Their words are those of the slots, and those that are missing at the end. -/
theorem mapM_words_sweepFrom :
    ∃ blocks, ((found (sweepFrom a pad words)).map (·.2)).mapM Instr.words = .ok blocks ∧
      List.replicate pad 0 ++ blocks.flatten =
        (sweepFrom a pad words).map rewritten ++ List.replicate (missingWords pad words) 0 := by
  fun_induction sweepFrom a pad words with
  | case1 => exact ⟨[], rfl, by simp [missingWords]⟩
  | case2 a pad w ws ih =>
    obtain ⟨blocks, hblocks, hflat⟩ := ih (List.forall_mem_cons.mp hclean).2
    refine ⟨blocks, hblocks, ?_⟩
    rw [List.replicate_succ, List.cons_append, hflat, missingWords]
    rfl
  | case3 a w ws i hi ih =>
    obtain ⟨blocks, hblocks, hflat⟩ := ih (List.forall_mem_cons.mp hclean).2
    refine ⟨(normalForm w :: List.replicate (slotsOf i.mnemonic - 1) 0) :: blocks, ?_, ?_⟩
    · refine mapM_eq_ok_iff.mpr (.cons ?_ (mapM_eq_ok_iff.mp hblocks))
      exact bind_eq_ok_iff.mpr ⟨_, encode_of_decode hi, rfl⟩
    · simp only [List.replicate_zero, List.nil_append, List.flatten_cons, List.cons_append, hflat, missingWords, hi]
      rfl
  | case4 a w ws e _ _ => cases hclean _ (List.mem_cons_self ..)

end Clean

end Analysis

open Analysis

/-- The relabelled lines resolve to the instructions that were found. -/
theorem reassemble_eq_ok {words : List Word} {blocks : List (List Word)}
    (h : ((found (sweep words)).map (·.2)).mapM Instr.words = .ok blocks) : reassemble words = .ok blocks.flatten := by
  refine assemble_eq_ok_iff.mpr ⟨_, blocks, mapM_eq_ok_iff.mpr ?_, h, rfl⟩
  refine List.forall₂_iff_get.mpr ⟨by simp [Report.lines, found, analyze], fun k h₁ h₂ => ?_⟩
  rw [List.length_map] at h₂
  obtain ⟨w, hw⟩ := decode_of_mem_found (List.getElem_mem h₂)
  have hline : ((analyze words).lines (analyze words).labels)[k].instr =
      (found (sweep words))[k].2.relabel (analyze words).labels := by
    simp only [Report.lines, analyze, found, List.getElem_map, List.getElem_zipIdx]
  simp only [List.get_eq_getElem, hline, List.getElem_map]
  exact Instr.resolve_relabel (nodup_names_analyze words) _ (ne_label_of_decode hw)

/-- The words of the slots, and a zero at the end if the image was cut off there. -/
theorem mapM_words_sweep {words : List Word} (hclean : ∀ s ∈ sweep words, s.error = none) :
    ∃ blocks, ((found (sweep words)).map (·.2)).mapM Instr.words = .ok blocks ∧
      blocks.flatten = (sweep words).map rewritten ++ if cutOff (sweep words) then [0] else [] := by
  obtain ⟨blocks, hblocks, hflat⟩ := mapM_words_sweepFrom hclean
  refine ⟨blocks, hblocks, ?_⟩
  rw [missingWords_eq (a := 0) (Nat.zero_le 1) (fun _ => rfl), List.replicate_zero, List.nil_append] at hflat
  rw [hflat, sweep]
  split <;> rfl

/-- Assembling a disassembled image again finds the same instructions in it. -/
theorem found_sweep_flatten {words : List Word} (hclean : ∀ s ∈ sweep words, s.error = none)
    {blocks : List (List Word)} (h : ((found (sweep words)).map (·.2)).mapM Instr.words = .ok blocks) :
    found (sweep blocks.flatten) = found (sweep words) := by
  have hfolded : ((found (sweep words)).map (·.2)).map Instr.folded = (found (sweep words)).map (·.2) := by
    rw [List.map_map]
    refine List.map_congr_left fun p hp => ?_
    obtain ⟨w, hw⟩ := decode_of_mem_found hp
    exact folded_of_decode hw
  rw [sweep, found_sweepFrom_flatten h 0, hfolded]
  exact (found_sweepFrom hclean).symm

/-- **A labelled disassembly assembles to the same image.** The names of the jump targets
differ, and each jump of the relabelled instructions goes to one of them. Assembled
again, an image of which every word decodes has each instruction encoded in its place
and zero in the second slots; one zero more is at the end exactly if the image was cut
off there. Doing it again changes nothing. -/
theorem reassemble_labelled_disassembly {words : List Word} (hclean : ∀ s ∈ (analyze words).slots, s.error = none) :
    ((analyze words).labels.map (·.2)).Nodup ∧
    (∀ s ∈ (analyze words).slots, ∀ i, s.instr = some i → ∀ k ∈ addrOperands i.mnemonic, ∃ (a : ℕ) (name : String),
      i.operands[k]? = some (.value a) ∧ (a, name) ∈ (analyze words).labels ∧
        (i.relabel (analyze words).labels).operands[k]? = some (.label name)) ∧
    (analyze words).slots.map (·.addr) = List.range words.length ∧
    (analyze words).slots.map (·.word) = words ∧
    ∃ words', reassemble words = .ok words' ∧
      (∀ s ∈ (analyze words).slots, ∃ w, words'[s.addr]? = some w ∧
        match s.instr with
        | some i => decode s.word = .ok i ∧ encode i = .ok w
        | none => w = 0) ∧
      words'.length = words.length + (if cutOff (analyze words).slots then 1 else 0) ∧
      (cutOff (analyze words).slots → words'[words.length]? = some 0) ∧
      (∀ s ∈ (analyze words').slots, s.error = none) ∧ reassemble words' = .ok words' := by
  obtain ⟨blocks, hblocks, hflat⟩ := mapM_words_sweep hclean
  have hagain : reassemble blocks.flatten = reassemble words := reassemble_congr (found_sweep_flatten hclean hblocks)
  refine ⟨nodup_names_analyze words, fun s hs i hi k hk => ?_, map_addr_sweep words, map_word_sweepFrom 0 0 words,
    blocks.flatten, reassemble_eq_ok hblocks, fun s hs => ?_, ?_, ?_, fun s hs => (mem_sweepFrom_flatten hblocks hs).1,
    hagain.trans (reassemble_eq_ok hblocks)⟩
  · obtain ⟨a, hvalue, htarget⟩ := jumpTarget?_of_decode (decode_of_mem_sweepFrom hs hi) hk
    have hfound : (s.addr, i) ∈ found (sweep words) := List.mem_filterMap.mpr ⟨s, hs, by rw [hi, Option.map_some]⟩
    have hname := lookup_labels_analyze hfound htarget
    refine ⟨a, targetName a, hvalue, mem_of_lookup_eq_some hname, ?_⟩
    rw [Instr.relabel, List.getElem?_mapIdx, hvalue, Option.map_some, if_pos hk]
    simp [Operand.relabel, hname]
  · refine ⟨rewritten s, ?_, ?_⟩
    · rw [hflat, List.getElem?_append_left, List.getElem?_map, getElem?_sweep_addr hs, Option.map_some]
      rw [List.length_map]
      exact (List.getElem?_eq_some_iff.mp (getElem?_sweep_addr hs)).1
    · cases hi : s.instr with
      | none => simp [rewritten, hi]
      | some i =>
        have hdecode := decode_of_mem_sweepFrom hs hi
        rw [rewritten, hi]
        exact ⟨hdecode, encode_of_decode hdecode⟩
  · rw [hflat, List.length_append, List.length_map, length_sweep, apply_ite List.length]
    rfl
  · intro hcut
    have hcut : cutOff (sweep words) = true := hcut
    rw [hflat, if_pos hcut, List.getElem?_append_right (by rw [List.length_map, length_sweep]), List.length_map,
      length_sweep, Nat.sub_self]
    rfl

/-- An image of a jump with a junk bit and the first word of a wait: the bit is cleared,
the jump is listed with the name of its target, which is outside of the image, and the
second slot of the wait is added. -/
theorem reassemble_labelled_disassembly_cut_off :
    (∀ s ∈ (analyze [0x3200000000100009, 0x1500000000000005]).slots, s.error = none) ∧
      (analyze [0x3200000000100009, 0x1500000000000005]).labels = [(9, "L9")] ∧
      reassemble [0x3200000000100009, 0x1500000000000005] = .ok [0x3200000000000009, 0x1500000000000005, 0] ∧
      reassemble [0x3200000000000009, 0x1500000000000005, 0] = .ok [0x3200000000000009, 0x1500000000000005, 0] := by
  have hclean : ∀ s ∈ (analyze [0x3200000000100009, 0x1500000000000005]).slots, s.error = none := by decide
  have hfirst : reassemble [0x3200000000100009, 0x1500000000000005] =
      .ok [0x3200000000000009, 0x1500000000000005, 0] := by rfl
  obtain ⟨-, -, -, -, words', hwords, -, -, -, -, hagain⟩ := reassemble_labelled_disassembly hclean
  cases hfirst.symm.trans hwords
  exact ⟨hclean, rfl, hfirst, hagain⟩

end PulseAsm
