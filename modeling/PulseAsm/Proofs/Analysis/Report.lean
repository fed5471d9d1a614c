import PulseAsm.Proofs.Analysis.Reachability
import Mathlib.Logic.Relation

/-!
# What a report says

A report has everything that its words say, and nothing else. Its slots are the words in
order; a slot is decoded unless it is the second one of the instruction before it
(`slot_sweep`). Its edges are those of the instructions in the slots (`mem_edges_iff`), and
its labels are the targets of their jumps. An address is reachable exactly if a path of
edges leads there from address 0 (`mem_reachable_iff`): the search goes on until the queue
is empty, and whatever holds of the start and passes along edges holds of all that it finds.

There is a report of every image of fewer than `2^32` words but for one kind
(`analyze?_eq_none_iff`): the sweep stops behind the last word, and there is no address there
if `2^32 - 1` words end in the first one of an instruction of two.
-/

namespace PulseAsm

/-- A slot that holds what its word decodes to. -/
structure Slot.Decoded (s : Slot) : Prop where
  instr : ∀ i, s.instr = some i ↔ decode s.word = .ok i
  error : ∀ e, s.error = some e ↔ decode s.word = .error e

/-- A slot that is left empty. -/
structure Slot.Blank (s : Slot) : Prop where
  instr : s.instr = none
  error : s.error = none

namespace Analysis

/-! ### Slots -/

/-- The address is that of the second slot of an instruction. -/
def IsSecond (slots : List Slot) (a : ℕ) : Prop :=
  ∃ s ∈ slots, ∃ i, s.instr = some i ∧ slotsOf i.mnemonic = 2 ∧ a = s.addr + 1

theorem isSecond_cons {s : Slot} {slots : List Slot} {a : ℕ} :
    IsSecond (s :: slots) a ↔ (∃ i, s.instr = some i ∧ slotsOf i.mnemonic = 2 ∧ a = s.addr + 1) ∨ IsSecond slots a := by
  unfold IsSecond
  rw [List.exists_mem_cons_iff]

theorem le_addr_of_mem_sweepFrom {a pad : ℕ} {words : List Word} {s : Slot} (hs : s ∈ sweepFrom a pad words) :
    a ≤ s.addr := by
  have haddr : s.addr ∈ List.range' a words.length := map_addr_sweepFrom a pad words ▸ List.mem_map_of_mem hs
  exact (List.mem_range'_1.mp haddr).1

theorem lt_of_isSecond {a pad b : ℕ} {words : List Word} (h : IsSecond (sweepFrom a pad words) b) : a < b := by
  obtain ⟨s, hs, i, -, -, rfl⟩ := h
  exact Nat.lt_succ_of_le (le_addr_of_mem_sweepFrom hs)

/-- The address is that of a second slot: of one of the instructions, or, if `pad` is one, of
the instruction before them, which start at address `a`. -/
def Belongs (a pad : ℕ) (slots : List Slot) (b : ℕ) : Prop := pad = 1 ∧ b = a ∨ IsSecond slots b

section Belongs

variable {a b : ℕ} {w : Word} {instr : Option Instr} {error : Option Error}

/-- Going on to the slots after the first. -/
theorem belongs_cons_iff (pad next : ℕ) {slots : List Slot} (hlt : a < b)
    (hnext : next = 1 ↔ ∃ i, instr = some i ∧ slotsOf i.mnemonic = 2) :
    Belongs a pad (⟨a, w, instr, error⟩ :: slots) b ↔ Belongs (a + 1) next slots b := by
  unfold Belongs
  rw [isSecond_cons, hnext]
  constructor
  · rintro (⟨-, rfl⟩ | ⟨i, hi, hslots, hb⟩ | hsecond)
    · omega
    · exact Or.inl ⟨⟨i, hi, hslots⟩, hb⟩
    · exact Or.inr hsecond
  · rintro (⟨⟨i, hi, hslots⟩, hb⟩ | hsecond)
    · exact Or.inr (Or.inl ⟨i, hi, hslots, hb⟩)
    · exact Or.inr (Or.inr hsecond)

theorem not_belongs_self {pad : ℕ} {words : List Word} :
    ¬ Belongs a 0 (⟨a, w, instr, error⟩ :: sweepFrom (a + 1) pad words) a := by
  rintro (⟨hpad, -⟩ | hsecond)
  · cases hpad
  · rcases isSecond_cons.mp hsecond with ⟨i, -, -, ha⟩ | hsecond
    · exact absurd ha (Nat.ne_of_lt (Nat.lt_succ_self a))
    · exact absurd (lt_of_isSecond hsecond) (by omega)

end Belongs

/-- A sweep decodes each word, and leaves a slot blank if it belongs to the instruction
before it. -/
theorem slot_sweepFrom {a pad : ℕ} {words : List Word} (hpad : pad ≤ 1) {s : Slot} (hs : s ∈ sweepFrom a pad words) :
    Belongs a pad (sweepFrom a pad words) s.addr ∧ s.Blank ∨
      ¬ Belongs a pad (sweepFrom a pad words) s.addr ∧ s.Decoded := by
  fun_induction sweepFrom a pad words with
  | case1 => cases hs
  | case2 a pad w ws ih =>
    rcases List.mem_cons.mp hs with rfl | hs
    · exact Or.inl ⟨Or.inl ⟨by omega, rfl⟩, rfl, rfl⟩
    · rw [belongs_cons_iff _ pad (le_addr_of_mem_sweepFrom hs) (by simp; omega)]
      exact ih (by omega) hs
  | case3 a w ws i hi ih =>
    rcases List.mem_cons.mp hs with rfl | hs
    · exact Or.inr ⟨not_belongs_self, by simp [hi], by simp [hi]⟩
    · have hslots := slotsOf_cases i.mnemonic
      rw [belongs_cons_iff _ (slotsOf i.mnemonic - 1) (le_addr_of_mem_sweepFrom hs) (by simp)]
      exact ih (by omega) hs
  | case4 a w ws e he ih =>
    rcases List.mem_cons.mp hs with rfl | hs
    · exact Or.inr ⟨not_belongs_self, by simp [he], by simp [he]⟩
    · rw [belongs_cons_iff _ 0 (le_addr_of_mem_sweepFrom hs) (by simp)]
      exact ih (Nat.zero_le 1) hs

/-- A slot of a report is blank exactly if it is the second one of an instruction; any other
slot holds what its word decodes to. -/
theorem slot_sweep {words : List Word} {s : Slot} (hs : s ∈ sweep words) :
    IsSecond (sweep words) s.addr ∧ s.Blank ∨ ¬ IsSecond (sweep words) s.addr ∧ s.Decoded := by
  have hbelongs : Belongs 0 0 (sweep words) s.addr ↔ IsSecond (sweep words) s.addr := by simp [Belongs]
  rw [← hbelongs]
  exact slot_sweepFrom (Nat.zero_le 1) hs

/-! ### Edges and labels -/

/-- The edges of an instruction: to the target of its jump, and on to what follows it in the
image, unless the program ends there. -/
theorem mem_instrEdges_iff {size a : ℕ} {i : Instr} {e : Edge} :
    e ∈ instrEdges size a i ↔ e.source = a ∧
      (e.kind = .condBranch ∧ i.jumpTarget? = some e.target ∨
        e.kind = .fallthrough ∧ e.target = a + slotsOf i.mnemonic ∧ e.target < size ∧ i.mnemonic ≠ "end") := by
  obtain ⟨source, target, kind⟩ := e
  unfold instrEdges
  rw [List.mem_append, and_or_left]
  refine or_congr ?_ ?_
  · cases i.jumpTarget? with
    | none => simp
    | some t => simp [eq_comm, and_comm]
  · by_cases hnext : i.mnemonic ≠ "end" ∧ a + slotsOf i.mnemonic < size
    · rw [if_pos hnext, List.mem_singleton, Edge.mk.injEq]
      constructor
      · rintro ⟨rfl, rfl, rfl⟩
        exact ⟨rfl, rfl, rfl, hnext.2, hnext.1⟩
      · rintro ⟨hsource, hkind, htarget, -⟩
        exact ⟨hsource, htarget, hkind⟩
    · rw [if_neg hnext]
      refine iff_of_false List.not_mem_nil ?_
      rintro ⟨-, -, htarget, hlt, hend⟩
      exact hnext ⟨hend, htarget ▸ hlt⟩

theorem mem_edges_iff {size : ℕ} {slots : List Slot} {e : Edge} :
    e ∈ edges size slots ↔ ∃ s ∈ slots, ∃ i, s.instr = some i ∧ e ∈ instrEdges size s.addr i := by
  unfold edges
  rw [List.mem_flatMap]
  refine exists_congr fun s => and_congr_right fun _ => ?_
  cases s.instr with
  | none => simp
  | some i => simp

/-- The labels are the targets of jumps with their names. -/
theorem mem_labels_iff {words : List Word} {a : ℕ} {name : String} :
    (a, name) ∈ (analyze words).labels ↔
      name = targetName a ∧ ∃ s ∈ sweep words, ∃ i, s.instr = some i ∧ i.jumpTarget? = some a := by
  have htargets : a ∈ jumpTargets (edges words.length (sweep words)) ↔
      ∃ s ∈ sweep words, ∃ i, s.instr = some i ∧ i.jumpTarget? = some a := by
    rw [jumpTargets_edges, mem_increasing]
    simp only [found, List.mem_filterMap, Option.map_eq_some_iff]
    constructor
    · rintro ⟨_, ⟨s, hs, i, hi, rfl⟩, ha⟩
      exact ⟨s, hs, i, hi, ha⟩
    · rintro ⟨s, hs, i, hi, ha⟩
      exact ⟨_, ⟨s, hs, i, hi, rfl⟩, ha⟩
  have hmem : (a, name) ∈ (analyze words).labels ↔
      ∃ b ∈ jumpTargets (edges words.length (sweep words)), (b, targetName b) = (a, name) := List.mem_map
  rw [hmem]
  constructor
  · rintro ⟨b, hb, heq⟩
    cases heq
    exact ⟨rfl, htargets.mp hb⟩
  · rintro ⟨rfl, htarget⟩
    exact ⟨a, htargets.mpr htarget, rfl⟩

theorem pairwise_labels (words : List Word) : ((analyze words).labels.map (·.1)).Pairwise (· < ·) := by
  have hkeys : (analyze words).labels.map (·.1) = jumpTargets (edges words.length (sweep words)) := by
    simp [analyze, Function.comp_def]
  rw [hkeys]
  exact pairwise_increasing _

/-! ### Paths -/

/-- One address leads to another along an edge. -/
def Leads (es : List Edge) (a b : ℕ) : Prop := ∃ e ∈ es, e.source = a ∧ e.target = b

/-- What passes along edges, and holds of all that was seen and queued, holds of all that the
search finds. -/
theorem forall_mem_search {es : List Edge} {P : ℕ → Prop} (hpass : ∀ e ∈ es, P e.source → P e.target)
    {seen queue : List ℕ} (hseen : ∀ a ∈ seen, P a) (hqueue : ∀ a ∈ queue, P a) : ∀ a ∈ search es seen queue, P a := by
  fun_induction search es seen queue with
  | case1 seen => exact hseen
  | case2 seen a queue _ ih => exact ih hseen (List.forall_mem_cons.mp hqueue).2
  | case3 seen a queue _ found ih =>
    obtain ⟨ha, hqueue⟩ := List.forall_mem_cons.mp hqueue
    refine ih (fun b hb => ?_) (List.forall_mem_append.mpr ⟨hqueue, fun b hb => ?_⟩)
    · rcases mem_insertIncreasing.mp hb with rfl | hb
      · exact ha
      · exact hseen b hb
    · obtain ⟨e, he, rfl, rfl⟩ := mem_successors.mp (List.mem_filter.mp hb).1
      exact hpass e he ha

/-- The reachable addresses are those that paths of edges lead to. -/
theorem mem_reachable_iff {size : ℕ} {es : List Edge} {a : ℕ} :
    a ∈ reachable size es ↔ 0 < size ∧ Relation.ReflTransGen (Leads es) 0 a := by
  constructor
  · intro ha
    unfold reachable at ha
    split at ha
    · cases ha
    · rename_i hsize
      refine ⟨Nat.pos_of_ne_zero hsize, ?_⟩
      refine forall_mem_search (fun e he hsource => ?_) (List.forall_mem_nil _) ?_ a ha
      · exact hsource.tail ⟨e, he, rfl, rfl⟩
      · exact List.forall_mem_singleton.mpr .refl
  · rintro ⟨hsize, hpath⟩
    obtain ⟨hstart, hclosed⟩ := reachable_closed es hsize
    induction hpath with
    | refl => exact hstart
    | tail _ hlead ih =>
      obtain ⟨e, he, rfl, rfl⟩ := hlead
      exact hclosed e he ih

theorem pairwise_reachable (size : ℕ) (es : List Edge) : (reachable size es).Pairwise (· < ·) := by
  have hstart : Searching es [] [0] := ⟨.nil, by simp⟩
  unfold reachable
  split
  · exact .nil
  · exact hstart.search.1.increasing

/-! ### Images without a report -/

section Bound

variable {words : List Word} {s : Slot}

theorem addr_lt_of_mem_sweep (hs : s ∈ sweep words) : s.addr < words.length := by
  have hlt := (List.getElem?_eq_some_iff.mp (getElem?_sweep_addr hs)).1
  rwa [length_sweep] at hlt

/-- The last slot is the one at the last address. -/
theorem getLast?_sweep_eq_some_iff : (sweep words).getLast? = some s ↔ s ∈ sweep words ∧ s.addr + 1 = words.length := by
  constructor
  · intro hlast
    have hs := List.mem_of_getLast? hlast
    have hlast' := congrArg List.getLast? (map_addr_sweep words)
    rw [List.getLast?_map, hlast, List.getLast?_range, Option.map_some] at hlast'
    refine ⟨hs, ?_⟩
    have hlt := addr_lt_of_mem_sweep hs
    rw [if_neg (by omega), Option.some.injEq] at hlast'
    omega
  · rintro ⟨hs, haddr⟩
    rw [List.getLast?_eq_getElem?, length_sweep, ← haddr, Nat.add_sub_cancel, getElem?_sweep_addr hs]

end Bound

theorem analyze?_eq_some_iff {words : List Word} {r : Report} :
    analyze? words = some r ↔ (∀ s ∈ sweep words, s.next < 2 ^ 32) ∧ r = analyze words := by
  have hall : ((analyze words).slots.all fun s => s.next < 0x100000000) ↔ ∀ s ∈ sweep words, s.next < 2 ^ 32 := by
    simp [analyze]
  unfold analyze?
  dsimp only
  by_cases hnext : ∀ s ∈ sweep words, s.next < 2 ^ 32
  · rw [if_pos (hall.mpr hnext), Option.some.injEq, eq_comm]
    exact ⟨fun h => ⟨hnext, h⟩, And.right⟩
  · rw [if_neg (mt hall.mp hnext)]
    exact iff_of_false (Option.some_ne_none r).symm fun h => hnext h.1

/-- Only the address behind the last word of an image may have no room. -/
theorem analyze?_eq_none_iff {words : List Word} (hsize : words.length < 2 ^ 32) :
    analyze? words = none ↔ words.length = 2 ^ 32 - 1 ∧ cutOff (sweep words) := by
  rw [Option.eq_none_iff_forall_ne_some, cutOff_iff]
  simp only [ne_eq, analyze?_eq_some_iff, not_and, getLast?_sweep_eq_some_iff]
  constructor
  · intro hnone
    obtain ⟨s, hs, hnext⟩ : ∃ s ∈ sweep words, 2 ^ 32 ≤ s.next := by
      by_contra hfits
      exact hnone _ (fun s hs => not_le.mp fun hle => hfits ⟨s, hs, hle⟩) rfl
    have haddr := addr_lt_of_mem_sweep hs
    unfold Slot.next at hnext
    cases hi : s.instr with
    | none =>
      rw [hi] at hnext
      dsimp only at hnext
      omega
    | some i =>
      rw [hi] at hnext
      dsimp only at hnext
      have hslots : slotsOf i.mnemonic = 2 := by rcases slotsOf_cases i.mnemonic with hslots | hslots <;> omega
      exact ⟨by omega, s, i, ⟨hs, by omega⟩, hi, hslots⟩
  · rintro ⟨hlength, s, i, ⟨hs, haddr⟩, hi, hslots⟩ r hfits
    have hnext := hfits s hs
    rw [Slot.next, hi] at hnext
    dsimp only at hnext
    omega

end Analysis

open Analysis in
/-- **A report says all of its image and no more.** An image of fewer than `2^32` words has a
report, unless there are `2^32 - 1` of them and the last one starts an instruction of two slots.
The slots of the report are the addresses of the image in order, each with its word. A slot is
blank if it is the second one of an instruction; otherwise it has the instruction or the error
that its word decodes to. The edges are from an instruction to the address that it has as an
operand, and past its slots if that is within the image and the program does not end there. The
labels are the addresses that instructions have as operands. The reachable addresses are those
that a path of edges leads to from address 0, and none in an image without words. All addresses
fit in 32 bits. -/
theorem report_says_all (words : List Word) (hsize : words.length < 2 ^ 32) :
    (analyze? words = none ↔ words.length = 2 ^ 32 - 1 ∧ cutOff (sweep words)) ∧
    ∀ r, analyze? words = some r →
      r.slots.map (·.addr) = List.range words.length ∧ r.slots.map (·.word) = words ∧
      (∀ s ∈ r.slots, IsSecond r.slots s.addr ∧ s.Blank ∨ ¬ IsSecond r.slots s.addr ∧ s.Decoded) ∧
      (∀ e, e ∈ r.edges ↔ ∃ s ∈ r.slots, ∃ i, s.instr = some i ∧ e.source = s.addr ∧
        (e.kind = .condBranch ∧ (∃ k ∈ addrOperands i.mnemonic, i.operands[k]? = some (.value e.target)) ∨
          e.kind = .fallthrough ∧ e.target = s.addr + slotsOf i.mnemonic ∧ e.target < words.length ∧
            i.mnemonic ≠ "end")) ∧
      (r.labels.map (·.1)).Pairwise (· < ·) ∧
      (∀ a name, (a, name) ∈ r.labels ↔ name = targetName a ∧ ∃ s ∈ r.slots, ∃ i, s.instr = some i ∧
        ∃ k ∈ addrOperands i.mnemonic, i.operands[k]? = some (.value a)) ∧
      r.reachable.Pairwise (· < ·) ∧
      (∀ a, a ∈ r.reachable ↔ words ≠ [] ∧ Relation.ReflTransGen (Leads r.edges) 0 a) ∧
      (∀ e ∈ r.edges, e.source < 2 ^ 32 ∧ e.target < 2 ^ 32) ∧ ∀ a ∈ r.reachable, a < 2 ^ 32 := by
  refine ⟨analyze?_eq_none_iff hsize, fun r hr => ?_⟩
  obtain ⟨-, rfl⟩ := analyze?_eq_some_iff.mp hr
  have htarget : ∀ s ∈ sweep words, ∀ i, s.instr = some i → ∀ t : ℕ,
      i.jumpTarget? = some t ↔ ∃ k ∈ addrOperands i.mnemonic, i.operands[k]? = some (.value t) :=
    fun s hs i hi t => jumpTarget?_eq_some_iff_of_decode (decode_of_mem_sweepFrom hs hi)
  have hedges : ∀ e ∈ (analyze words).edges, e.source < 2 ^ 32 ∧ e.target < 2 ^ 32 := by
    intro e he
    obtain ⟨s, hs, i, -, he⟩ := mem_edges_iff.mp he
    have haddr := addr_lt_of_mem_sweep hs
    obtain ⟨hsource, ⟨-, htarget⟩ | ⟨-, -, hlt, -⟩⟩ := mem_instrEdges_iff.mp he
    · exact ⟨hsource ▸ haddr.trans hsize, (Instr.exists_operand_of_jumpTarget? htarget).1⟩
    · exact ⟨hsource ▸ haddr.trans hsize, hlt.trans hsize⟩
  have hreachable : ∀ a, a ∈ (analyze words).reachable ↔
      words ≠ [] ∧ Relation.ReflTransGen (Leads (analyze words).edges) 0 a := by
    intro a
    rw [← List.length_pos_iff]
    exact mem_reachable_iff
  refine ⟨map_addr_sweep words, map_word_sweepFrom 0 0 words, fun s hs => slot_sweep hs, fun e => ?_,
    pairwise_labels words, fun a name => ?_, pairwise_reachable _ _, hreachable, hedges, fun a ha => ?_⟩
  · refine mem_edges_iff.trans (exists_congr fun s => and_congr_right fun hs => exists_congr fun i => ?_)
    refine and_congr_right fun hi => ?_
    rw [mem_instrEdges_iff, htarget s hs i hi]
  · refine mem_labels_iff.trans (and_congr_right fun _ => exists_congr fun s => and_congr_right fun hs => ?_)
    exact exists_congr fun i => and_congr_right fun hi => htarget s hs i hi a
  · rcases ((hreachable a).mp ha).2.cases_tail with rfl | ⟨b, -, e, he, -, rfl⟩
    · decide
    · exact (hedges e he).2

/-- A word that does not decode, a jump out of the image, one back to its start, and an
instruction of two slots that is cut off. -/
def cutOffImage : List Word :=
  [0x3200000000000002, 0xFF00000000000000, 0x3200000000000009, 0x3200000000000000, 0x1500000000000005]

/-- A path leads out of the image, and none to the second slot that is missing. -/
theorem report_says_all_cut_off :
    ∃ r, cutOffImage.length < 2 ^ 32 ∧ analyze? cutOffImage = some r ∧ r.slots.map (·.word) = cutOffImage ∧
      r.labels = [(0, "L0"), (2, "L2"), (9, "L9")] ∧ Relation.ReflTransGen (Analysis.Leads r.edges) 0 9 ∧
      ¬ Relation.ReflTransGen (Analysis.Leads r.edges) 0 5 := by
  have hsize : cutOffImage.length < 2 ^ 32 := by decide
  obtain ⟨hnone, hsays⟩ := report_says_all cutOffImage hsize
  obtain ⟨r, hr⟩ : ∃ r, analyze? cutOffImage = some r :=
    Option.ne_none_iff_exists'.mp fun h => absurd (hnone.mp h).1 (by decide)
  obtain ⟨-, hwords, -, -, -, -, -, hreachable, -⟩ := hsays r hr
  obtain ⟨-, rfl⟩ := Analysis.analyze?_eq_some_iff.mp hr
  have hfound : (analyze cutOffImage).reachable = [0, 1, 2, 3, 4, 9] := by decide +kernel
  refine ⟨_, hsize, hr, hwords, by decide, ((hreachable 9).mp ?_).2, fun hpath => ?_⟩
  · rw [hfound]
    decide
  · have hmem := (hreachable 5).mpr ⟨List.cons_ne_nil _ _, hpath⟩
    rw [hfound] at hmem
    exact absurd hmem (by decide)

/-- A number of words that do not decode, and the first word of an instruction of two slots. -/
def cutOffAfter (n : ℕ) : List Word := List.replicate n 0xFF00000000000000 ++ [0x1500000000000005]

theorem length_cutOffAfter (n : ℕ) : (cutOffAfter n).length = n + 1 := by
  rw [cutOffAfter, List.length_append, List.length_replicate, List.length_singleton]

open Analysis in
/-- The sweep gets to the last word, however many there are ahead of it. -/
theorem cutOff_sweepFrom_cutOffAfter (a n : ℕ) : cutOff (sweepFrom a 0 (cutOffAfter n)) := by
  induction n generalizing a with
  | zero => rfl
  | succ n ih =>
    have hne : cutOffAfter n ≠ [] := List.append_ne_nil_of_right_ne_nil _ (List.cons_ne_nil _ _)
    obtain ⟨e, he⟩ : ∃ e, decode 0xFF00000000000000 = .error e := ⟨_, rfl⟩
    have hsucc : cutOffAfter (n + 1) = 0xFF00000000000000 :: cutOffAfter n := by
      rw [cutOffAfter, List.replicate_succ, List.cons_append, ← cutOffAfter]
    rw [hsucc, sweepFrom, he]
    dsimp only
    rw [cutOff_cons_sweepFrom _ hne]
    exact ih (a + 1)

/-- **Not every image of fewer than `2^32` words has a report**: the address past the
instruction that is cut off is `2^32`. -/
theorem long_image_without_report :
    (cutOffAfter (2 ^ 32 - 2)).length < 2 ^ 32 ∧ analyze? (cutOffAfter (2 ^ 32 - 2)) = none := by
  have hlength := length_cutOffAfter (2 ^ 32 - 2)
  have hsize : (cutOffAfter (2 ^ 32 - 2)).length < 2 ^ 32 := by omega
  refine ⟨hsize, (Analysis.analyze?_eq_none_iff hsize).mpr ⟨by omega, ?_⟩⟩
  exact cutOff_sweepFrom_cutOffAfter 0 (2 ^ 32 - 2)

end PulseAsm
