import PulseAsm.Analysis.Report
import PulseAsm.Proofs.Image
import PulseAsm.Proofs.Instr.RoundTrip

/-!
# The sweep over an image

A sweep reads one word after the other and has to tell the first words of
instructions from the zeros in their second slots. On an assembled image it never
loses its place: it finds the instructions that were assembled, one for each line,
at the addresses that they were given, and nothing but their second slots besides.

The instructions that a sweep finds are collected with their addresses
(`Analysis.found`); instructions that stand one after the other have the addresses
of `Analysis.placeFrom`.
-/

namespace PulseAsm

/-! ### Bytes -/

theorem Image.wordsOfBytes_append : ∀ {bytes : List UInt8}, bytes.length = 8 → ∀ rest,
    wordsOfBytes (bytes ++ rest) = BitVec.ofNat 64 (ofLittleEndian bytes) :: wordsOfBytes rest
  | [_, _, _, _, _, _, _, _], _, _ => rfl

/-- An image is read back from its bytes. -/
theorem Image.ofBytes?_toBytes (words : List Word) : ofBytes? (toBytes words) = some words := by
  have hback : (toBytes words).length % 8 = 0 ∧ wordsOfBytes (toBytes words) = words := by
    unfold toBytes
    induction words with
    | nil => exact ⟨rfl, rfl⟩
    | cons w words ih =>
      have hword : ofLittleEndian (littleEndian 8 w.toNat) = w.toNat := by
        rw [ofLittleEndian_littleEndian]
        exact Nat.mod_eq_of_lt w.isLt
      rw [List.flatMap_cons, wordsOfBytes_append (length_littleEndian 8 _), hword, ih.2, List.length_append,
        length_littleEndian]
      exact ⟨by omega, by rw [BitVec.ofNat_toNat, BitVec.setWidth_eq]⟩
  rw [ofBytes?, if_pos hback.1, hback.2]

namespace Analysis

/-! ### What a sweep finds -/

/-- The instructions of slots, with their addresses. -/
def found (slots : List Slot) : List (ℕ × Instr) := slots.filterMap fun s => s.instr.map fun i => (s.addr, i)

/-- Instructions with the addresses that they have one after the other. -/
def placeFrom : ℕ → List Instr → List (ℕ × Instr)
  | _, [] => []
  | a, i :: is => (a, i) :: placeFrom (a + slotsOf i.mnemonic) is

/-- A slot for each word, in order. -/
theorem map_addr_sweepFrom (a pad : ℕ) (words : List Word) :
    (sweepFrom a pad words).map (·.addr) = List.range' a words.length := by
  fun_induction sweepFrom a pad words with
  | case1 => rfl
  | case2 a pad w ws ih => rw [List.map_cons, ih, List.length_cons, List.range'_succ]
  | case3 a w ws i _ ih => rw [List.map_cons, ih, List.length_cons, List.range'_succ]
  | case4 a w ws e _ ih => rw [List.map_cons, ih, List.length_cons, List.range'_succ]

theorem map_word_sweepFrom (a pad : ℕ) (words : List Word) : (sweepFrom a pad words).map (·.word) = words := by
  fun_induction sweepFrom a pad words with
  | case1 => rfl
  | case2 a pad w ws ih => rw [List.map_cons, ih]
  | case3 a w ws i _ ih => rw [List.map_cons, ih]
  | case4 a w ws e _ ih => rw [List.map_cons, ih]

/-- The words of an instruction give its slot, and one without an instruction if it
has a second. -/
theorem sweepFrom_words {i : Instr} {w : Word} (h : encode i = .ok w) (a : ℕ) (rest : List Word) :
    sweepFrom a 0 (w :: (List.replicate (slotsOf i.mnemonic - 1) 0 ++ rest)) =
      ⟨a, w, some i.folded, none⟩ :: ((if slotsOf i.mnemonic = 2 then [⟨a + 1, 0, none, none⟩] else []) ++
        sweepFrom (a + slotsOf i.mnemonic) 0 rest) := by
  have hm : i.folded.mnemonic = i.mnemonic := rfl
  rw [sweepFrom, decode_of_encode h]
  simp only [hm]
  rcases slotsOf_cases i.mnemonic with hs | hs
  · simp [hs]
  · simp [hs, sweepFrom]

section Blocks

variable {is : List Instr} {blocks : List (List Word)}

/-- The words of instructions one after the other. -/
theorem mapM_words_cons {i : Instr} (h : (i :: is).mapM Instr.words = .ok blocks) :
    ∃ w blocks', encode i = .ok w ∧ is.mapM Instr.words = .ok blocks' ∧
      blocks.flatten = w :: (List.replicate (slotsOf i.mnemonic - 1) 0 ++ blocks'.flatten) := by
  obtain ⟨block, blocks', hi, his, rfl⟩ := List.forall₂_cons_left_iff.mp (mapM_eq_ok_iff.mp h)
  obtain ⟨w, hw, hblock⟩ := bind_eq_ok_iff.mp hi
  cases hblock
  exact ⟨w, blocks', hw, mapM_eq_ok_iff.mpr his, rfl⟩

/-- A sweep finds the instructions whose words stand in the image. -/
theorem found_sweepFrom_flatten (h : is.mapM Instr.words = .ok blocks) (a : ℕ) :
    found (sweepFrom a 0 blocks.flatten) = placeFrom a (is.map Instr.folded) := by
  induction is generalizing a blocks with
  | nil =>
    cases h
    rfl
  | cons i is ih =>
    obtain ⟨w, blocks', hw, his, hwords⟩ := mapM_words_cons h
    have hm : i.folded.mnemonic = i.mnemonic := rfl
    rw [hwords, sweepFrom_words hw, List.map_cons, placeFrom, hm, ← ih his]
    unfold found
    split <;> simp

/-- It finds nothing else but the second slots of instructions. -/
theorem mem_sweepFrom_flatten (h : is.mapM Instr.words = .ok blocks) {a : ℕ} {s : Slot}
    (hs : s ∈ sweepFrom a 0 blocks.flatten) :
    s.error = none ∧ (s.instr = none → s.word = 0 ∧
      ∃ p ∈ placeFrom a (is.map Instr.folded), slotsOf p.2.mnemonic = 2 ∧ s.addr = p.1 + 1) := by
  induction is generalizing a blocks with
  | nil =>
    cases h
    cases hs
  | cons i is ih =>
    obtain ⟨w, blocks', hw, his, hwords⟩ := mapM_words_cons h
    rw [hwords, sweepFrom_words hw, List.mem_cons, List.mem_append] at hs
    rw [List.map_cons, placeFrom]
    rcases hs with rfl | hs | hs
    · exact ⟨rfl, fun hnone => nomatch hnone⟩
    · split at hs
      · rename_i hslots
        rw [List.mem_singleton] at hs
        subst hs
        exact ⟨rfl, fun _ => ⟨rfl, _, List.mem_cons_self .., hslots, rfl⟩⟩
      · cases hs
    · obtain ⟨herror, hpad⟩ := ih his hs
      refine ⟨herror, fun hnone => ?_⟩
      obtain ⟨hword, p, hp, hslots⟩ := hpad hnone
      exact ⟨hword, p, List.mem_cons_of_mem _ hp, hslots⟩

end Blocks

/-! ### Assembled images -/

/-- Resolving labels keeps the mnemonics. -/
theorem mnemonics_of_resolve {lines : List Line} {labels : LabelTable} {is : List Instr}
    (h : lines.mapM (fun l => l.instr.resolve labels l.addr) = .ok is) :
    List.Forall₂ (fun l i => l.instr.mnemonic = i.mnemonic) lines (is.map Instr.folded) := by
  refine List.forall₂_map_right_iff.mpr ((mapM_eq_ok_iff.mp h).imp fun l i hi => ?_)
  rw [Instr.resolve_eq_ok hi]
  rfl

/-- The place of an instruction is the sum of the slots of the lines before its own. -/
theorem placeFrom_eq_mapIdx {lines : List Line} {is : List Instr}
    (h : List.Forall₂ (fun l i => l.instr.mnemonic = i.mnemonic) lines is) (a : ℕ) :
    placeFrom a is = is.mapIdx fun k i => (a + slotSum (lines.take k), i) := by
  induction h generalizing a with
  | nil => rfl
  | @cons l i lines is hm _ ih =>
    rw [placeFrom, ih, List.mapIdx_cons, ← hm]
    simp [Nat.add_assoc]

end Analysis

open Analysis in
/-- **The sweep recovers every assembled program**: the bytes of the image are read back
and analysed without an undecodable word, and the slots that carry an instruction are
one for each line, in order, at the sum of the slots of the lines before it; they hold
the line's instruction with its labels resolved and its negative immediates folded. A
slot without an instruction is the second one of a line that takes two. -/
theorem sweep_recovers_program {lines : List Line} {labels : LabelTable} {words : List Word}
    (h : assemble lines labels = .ok words) :
    ∃ image is, Image.ofBytes? (Image.toBytes words) = some image ∧
      lines.mapM (fun l => l.instr.resolve labels l.addr) = .ok is ∧
      (∀ s ∈ (analyze image).slots, s.error = none) ∧
      found (analyze image).slots = (is.map Instr.folded).mapIdx (fun k i => (slotSum (lines.take k), i)) ∧
      (analyze image).slots.map (·.addr) = List.range (slotSum lines) ∧
      ∀ s ∈ (analyze image).slots, s.instr = none →
        ∃ k l, lines[k]? = some l ∧ slotsOf l.instr.mnemonic = 2 ∧ s.addr = slotSum (lines.take k) + 1 := by
  obtain ⟨is, blocks, his, hblocks, hwords⟩ := assemble_eq_ok_iff.mp h
  have hmnemonics := mnemonics_of_resolve his
  have hplaces : placeFrom 0 (is.map Instr.folded) =
      (is.map Instr.folded).mapIdx fun k i => (slotSum (lines.take k), i) := by
    rw [placeFrom_eq_mapIdx hmnemonics]
    simp only [Nat.zero_add]
  refine ⟨words, is, Image.ofBytes?_toBytes words, his, fun s hs => ?_, ?_, ?_, fun s hs hnone => ?_⟩
  · exact (mem_sweepFrom_flatten hblocks (hwords ▸ hs)).1
  · rw [← hplaces, ← found_sweepFrom_flatten hblocks, ← hwords]
    rfl
  · rw [← length_assemble h, List.range_eq_range', ← map_addr_sweepFrom 0 0]
    rfl
  · obtain ⟨-, p, hp, hslots, haddr⟩ := (mem_sweepFrom_flatten hblocks (hwords ▸ hs)).2 hnone
    rw [hplaces] at hp
    obtain ⟨k, hk, rfl⟩ := List.mem_mapIdx.mp hp
    have hk' : k < lines.length := by rw [hmnemonics.length_eq]; exact hk
    have hm : lines[k].instr.mnemonic = (is.map Instr.folded)[k].mnemonic := hmnemonics.get hk' hk
    exact ⟨k, lines[k], List.getElem?_eq_getElem hk', by rw [hm]; exact hslots, haddr⟩

/-- A jump forward over a wait for a negative time: the sweep steps over the second slot
of the wait and finds the end at address 3. -/
theorem sweep_recovers_program_jump_over_wait :
    ∃ words image,
      assemble [⟨⟨"jnz", [.label "STOP"], false⟩, 0, 0, none⟩, ⟨⟨"waiti", [.value 0, .value (-5)], false⟩, 1, 1, none⟩,
        ⟨⟨"end", [], false⟩, 3, 2, none⟩] [("STOP", 3)] = .ok words ∧
      Image.ofBytes? (Image.toBytes words) = some image ∧
      Analysis.found (analyze image).slots = [(0, ⟨"jnz", [.value 3], false⟩),
        (1, ⟨"waiti", [.value 0, .value 0x7FFFFFFB], false⟩), (3, ⟨"end", [], false⟩)] ∧
      (analyze image).slots.map (·.addr) = [0, 1, 2, 3] := by
  have h : assemble [⟨⟨"jnz", [.label "STOP"], false⟩, 0, 0, none⟩,
      ⟨⟨"waiti", [.value 0, .value (-5)], false⟩, 1, 1, none⟩, ⟨⟨"end", [], false⟩, 3, 2, none⟩] [("STOP", 3)] =
        .ok [0x3200000000000003, 0x150000007FFFFFFB, 0, 0x3F00000000000000] := by rfl
  obtain ⟨image, is, himage, his, -, hfound, haddr, -⟩ := sweep_recovers_program h
  cases his
  exact ⟨_, image, h, himage, hfound, haddr⟩

end PulseAsm
