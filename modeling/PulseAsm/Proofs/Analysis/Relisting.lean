import PulseAsm.Proofs.Analysis.Reachability

/-!
# Listing an image like its program

An image is read by slot width (`Image.instrsFrom`): the word at an address is decoded,
and its instruction says where the next one starts. As long as every word decodes, this
finds what a sweep finds, so the lines of a program come back from its image at their
addresses, with labels resolved and immediates folded.

The label table turned round takes the addresses back to labels. It must not touch any
other number, even one that is the address of a label, and must not choose between two
labels of one address: relabelling undoes resolving if labels stand exactly where jumps
have their addresses, and no two of them share one (`Instr.relabel_resolve`). The listing
is then that of the program, remarks apart.
-/

namespace PulseAsm

/-! ### Reading by slot width -/

/-- The instructions of an image from an address on, with their addresses: each is
followed by the one behind its slots. -/
def Image.instrsFrom (words : List Word) (a : ℕ) : Except Error (List (ℕ × Instr)) :=
  if h : a < words.length then do
    let i ← decode words[a]
    let rest ← instrsFrom words (a + slotsOf i.mnemonic)
    return (a, i) :: rest
  else .ok []
termination_by words.length - a
decreasing_by rcases slotsOf_cases i.mnemonic with hs | hs <;> omega

section Reading

open Analysis

variable {words : List Word} {a : ℕ}

theorem Image.instrsFrom_of_length_le (h : words.length ≤ a) : instrsFrom words a = .ok [] := by
  rw [instrsFrom, dif_neg (Nat.not_lt.mpr h)]

theorem Image.instrsFrom_of_decode {w : Word} {i : Instr} {rest : List (ℕ × Instr)} (hw : words[a]? = some w)
    (hi : decode w = .ok i) (hrest : instrsFrom words (a + slotsOf i.mnemonic) = .ok rest) :
    instrsFrom words a = .ok ((a, i) :: rest) := by
  obtain ⟨hlt, rfl⟩ := List.getElem?_eq_some_iff.mp hw
  rw [instrsFrom, dif_pos hlt]
  exact bind_eq_ok_iff.mpr ⟨i, hi, bind_eq_ok_iff.mpr ⟨rest, hrest, rfl⟩⟩

/-- If every word decodes, reading by slot width finds what a sweep finds. -/
theorem Image.instrsFrom_eq_found {pad : ℕ} {rest : List Word} (hdrop : words.drop a = rest)
    (hok : ∀ s ∈ sweepFrom a pad rest, s.error = none) :
    instrsFrom words (a + pad) = .ok (found (sweepFrom a pad rest)) := by
  have hnext : ∀ {a : ℕ} {w : Word} {ws : List Word}, words.drop a = w :: ws → words.drop (a + 1) = ws := by
    intro a w ws hdrop
    rw [← List.tail_drop, hdrop, List.tail_cons]
  fun_induction sweepFrom a pad rest with
  | case1 a pad =>
    exact instrsFrom_of_length_le (Nat.le_trans (List.drop_eq_nil_iff.mp hdrop) (Nat.le_add_right a pad))
  | case2 a pad w ws ih =>
    have hrest := ih (hnext hdrop) fun s hs => hok s (List.mem_cons_of_mem _ hs)
    rw [Nat.add_right_comm, Nat.add_assoc] at hrest
    exact hrest
  | case3 a w ws i hi ih =>
    have hw : words[a]? = some w := by
      rw [← Nat.add_zero a, ← List.getElem?_drop, hdrop]
      rfl
    have hrest := ih (hnext hdrop) fun s hs => hok s (List.mem_cons_of_mem _ hs)
    have hslots : a + 1 + (slotsOf i.mnemonic - 1) = a + slotsOf i.mnemonic := by
      rcases slotsOf_cases i.mnemonic with hs | hs <;> omega
    rw [hslots] at hrest
    exact instrsFrom_of_decode hw hi hrest
  | case4 a w ws e he ih => cases hok _ (List.mem_cons_self ..)

/-- The lines of a program are read back from its image. -/
theorem Program.instrsFrom_of_assemble {p : Program} (hp : p.Laid) (h : p.assemble = .ok words) :
    Image.instrsFrom words 0 = .ok (p.lines.map fun l => (l.addr, p.imageInstr l)) := by
  rw [← found_sweep_of_assemble hp h]
  obtain ⟨is, blocks, -, hblocks, rfl⟩ := assemble_eq_ok_iff.mp h
  have hok : ∀ s ∈ sweepFrom 0 0 blocks.flatten, s.error = none := fun s hs => (mem_sweepFrom_flatten hblocks hs).1
  exact Image.instrsFrom_eq_found rfl hok

end Reading

/-! ### Labels in the place of addresses -/

/-- Labels stand only where jumps have their addresses. -/
def Program.LabelsInJumps (p : Program) : Prop :=
  ∀ l ∈ p.lines, ∀ k name, l.instr.operands[k]? = some (.label name) → k ∈ addrOperands l.instr.mnemonic

theorem Instr.ImmNonneg.withAddresses {i : Instr} (h : i.ImmNonneg) (labels : LabelTable) :
    (i.withAddresses labels).ImmNonneg := by
  intro k v hv himm
  obtain ⟨o, ho, hv⟩ := Option.map_eq_some_iff.mp ((List.getElem?_map ..).symm.trans hv)
  cases o with
  | value v' =>
    cases hv
    exact h k v ho himm
  | op o => cases hv
  | label name =>
    -- a label is replaced by an address, which is not negative
    simp only [Operand.withAddress] at hv
    split at hv <;> cases hv
    exact Int.natCast_nonneg _

section Labels

variable {labels : LabelTable} {addr : ℕ}

theorem Operand.relabel_resolve (hlabels : (labels.map (·.2)).Nodup) {name : String} {o : Operand}
    (h : (Operand.label name).resolve labels addr = .ok o) : o.relabel (labels.map Prod.swap) = .label name := by
  simp only [resolve] at h
  split at h
  · rename_i a ha
    cases h
    have hname := lookup_swap_of_mem hlabels (mem_of_lookup_eq_some ha)
    simp [relabel, hname]
  · cases h

theorem Operand.eq_of_resolve {o o' : Operand} (h : o.resolve labels addr = .ok o') (ho : ∀ name, o ≠ .label name) :
    o' = o := by
  cases o with
  | label name => exact absurd rfl (ho name)
  | value v => exact (Except.ok.inj h).symm
  | op o => exact (Except.ok.inj h).symm

/-- Relabelling undoes resolving. -/
theorem Instr.relabel_resolve (hlabels : (labels.map (·.2)).Nodup) {i j : Instr} (h : i.resolve labels addr = .ok j)
    (hjumps : ∀ k ∈ addrOperands i.mnemonic, ∃ name, i.operands[k]? = some (.label name))
    (honly : ∀ k name, i.operands[k]? = some (.label name) → k ∈ addrOperands i.mnemonic) :
    j.relabel (labels.map Prod.swap) = i := by
  obtain ⟨operands, hops, hj⟩ := bind_eq_ok_iff.mp h
  cases hj
  have hall := mapM_eq_ok_iff.mp hops
  have hback : (operands.mapIdx fun k o =>
      if k ∈ addrOperands i.mnemonic then o.relabel (labels.map Prod.swap) else o) = i.operands := by
    refine List.ext_getElem (by simp [hall.length_eq]) fun k h₁ h₂ => ?_
    have hk : k < operands.length := by simpa using h₁
    have ho : (i.operands[k]).resolve labels addr = .ok operands[k] := hall.get h₂ hk
    rw [List.getElem_mapIdx]
    by_cases haddr : k ∈ addrOperands i.mnemonic
    · obtain ⟨name, hname⟩ := hjumps k haddr
      have hlabel : i.operands[k] = .label name := (List.getElem?_eq_some_iff.mp hname).2
      rw [if_pos haddr, hlabel]
      rw [hlabel] at ho
      exact Operand.relabel_resolve hlabels ho
    · rw [if_neg haddr]
      refine Operand.eq_of_resolve ho fun name hname => haddr (honly k name ?_)
      rw [List.getElem?_eq_getElem h₂, hname]
  cases i
  exact congrArg (Instr.mk _ · _) hback

end Labels

/-- The lines of a program whose immediates are not negative come back with their labels. -/
theorem Program.relabel_imageInstr {p : Program} {words : List Word} (h : p.assemble = .ok words)
    (hjumps : p.JumpsToLabels) (honly : p.LabelsInJumps) (hlabels : (p.labels.map (·.2)).Nodup) {l : Line}
    (hl : l ∈ p.lines) (himm : l.instr.ImmNonneg) :
    (p.imageInstr l).relabel (p.labels.map Prod.swap) = l.instr := by
  obtain ⟨i, -, hi, -⟩ := exists_assemble_iff.mp ⟨words, h⟩ l hl
  rw [imageInstr, Instr.folded_of_immNonneg (himm.withAddresses _), ← Instr.resolve_eq_ok hi]
  exact Instr.relabel_resolve hlabels hi (hjumps l hl) (honly l hl)

/-! ### Listings -/

/-- A line without its remark. -/
def Line.bare (l : Line) : Line := { l with comment := none }

/-- Instructions that were read from an image as lines of a listing, with names in the
place of the jump targets that have one. -/
def relisted (names : List (ℕ × String)) (read : List (ℕ × Instr)) : List Line :=
  read.mapIdx fun k e => ⟨e.2.relabel names, e.1, k, none⟩

/-- **An image lists like its program**: take a program that assembles, with no negative
immediate, with labels in the address operands of jumps and nowhere else, and with no two
labels at one address. Reading its image by slot width succeeds, and relabelling what is
read with the label table turned round gives the instructions of the program at their
addresses; so the two listings agree, remarks apart. -/
theorem image_lists_like_program {board : Board} {p : Program} (hp : Reachable board p) {words : List Word}
    (h : p.assemble = .ok words) (himm : ∀ l ∈ p.lines, l.instr.ImmNonneg) (hjumps : p.JumpsToLabels)
    (honly : p.LabelsInJumps) (hlabels : (p.labels.map (·.2)).Nodup) :
    ∃ read, Image.instrsFrom words 0 = .ok read ∧
      (read.map fun e => (e.1, e.2.relabel (p.labels.map Prod.swap))) = (p.lines.map fun l => (l.addr, l.instr)) ∧
      listing (relisted (p.labels.map Prod.swap) read) p.labels = listing (p.lines.map Line.bare) p.labels := by
  have hback : ∀ l ∈ p.lines, (p.imageInstr l).relabel (p.labels.map Prod.swap) = l.instr := fun l hl =>
    p.relabel_imageInstr h hjumps honly hlabels hl (himm l hl)
  have hlines : relisted (p.labels.map Prod.swap) (p.lines.map fun l => (l.addr, p.imageInstr l)) =
      p.lines.map Line.bare := by
    refine List.ext_getElem? fun k => ?_
    simp only [relisted, List.getElem?_mapIdx, List.getElem?_map, Option.map_map]
    cases hk : p.lines[k]? with
    | none => rfl
    | some l => simp [Line.bare, hback l (List.mem_of_getElem? hk), hp.laid.number k l hk]
  refine ⟨_, p.instrsFrom_of_assemble hp.laid h, ?_, by rw [hlines]⟩
  rw [List.map_map]
  exact List.map_congr_left fun l hl => congrArg (l.addr, ·) (hback l hl)

/-- A loop around a wait until 1, which is also the address of the loop's label. -/
def waitLoop : Program := bareProgram.after [.openLoop 2 none, .wait 1, .closeLoop, .finish]

/-- The label comes back in the jump of the loop, and the time of the wait stays a number. -/
theorem image_lists_like_program_wait_loop :
    Reachable bareBoard waitLoop ∧ (∀ l ∈ waitLoop.lines, l.instr.ImmNonneg) ∧ waitLoop.JumpsToLabels ∧
      waitLoop.LabelsInJumps ∧ waitLoop.labels = [("LOOP_0", 1)] ∧
      ∃ words read, waitLoop.assemble = .ok words ∧ Image.instrsFrom words 0 = .ok read ∧
        (read.map fun e => (e.1, e.2.relabel [(1, "LOOP_0")])) =
          [(0, ⟨"regwi", [.value 0, .value 0, .value 2], false⟩), (1, ⟨"waiti", [.value 0, .value 1], false⟩),
            (3, ⟨"mathi", [.value 0, .value 0, .value 0, .op .sub, .value 1], true⟩),
            (4, ⟨"jnz", [.label "LOOP_0"], false⟩), (5, ⟨"end", [], false⟩)] ∧
        listing (relisted [(1, "LOOP_0")] read) [("LOOP_0", 1)] =
          "// Program\n\n    regwi 0, $0, 2;\nLOOP_0:\n    waiti 0, 1;\n    mathi 0, $0, $0 - 1 uf;\n" ++
            "    jnz @LOOP_0;\n    end;\n" := by
  have hreach : Reachable bareBoard waitLoop := (Reachable.start ofBoard_bareBoard).after _
  have hops : ∀ l ∈ waitLoop.lines, ∀ o ∈ l.instr.operands,
      o ∈ [.value 0, .value 1, .value 2, .op .sub, .label "LOOP_0"] := by decide
  have himm : ∀ l ∈ waitLoop.lines, l.instr.ImmNonneg := by
    intro l hl k v hv _
    have hmem := hops l hl _ (List.mem_of_getElem? hv)
    simp only [List.mem_cons, Operand.value.injEq, reduceCtorEq, List.not_mem_nil, or_false] at hmem
    omega
  have hjumps : waitLoop.JumpsToLabels := by
    have hjumps : ∀ l ∈ waitLoop.lines, ∀ k ∈ addrOperands l.instr.mnemonic,
        l.instr.operands[k]? = some (.label "LOOP_0") := by decide
    exact fun l hl k hk => ⟨"LOOP_0", hjumps l hl k hk⟩
  have honly : waitLoop.LabelsInJumps := by
    have honly : ∀ l ∈ waitLoop.lines, ∀ e ∈ l.instr.operands.zipIdx, e.1 = .label "LOOP_0" →
        e.2 ∈ addrOperands l.instr.mnemonic := by decide
    intro l hl k name hk
    have hmem := hops l hl _ (List.mem_of_getElem? hk)
    simp only [List.mem_cons, Operand.label.injEq, reduceCtorEq, List.not_mem_nil, or_false, false_or] at hmem
    exact honly l hl _ (List.mk_mem_zipIdx_iff_getElem?.mpr hk) (congrArg Operand.label hmem)
  have hwords : waitLoop.assemble = .ok [0x1900000000000002, 0x1500000000000001, 0,
      0x1202400080000001, 0x3200000000000001, 0x3F00000000000000] := by rfl
  obtain ⟨read, hread, hinstrs, hlisting⟩ := image_lists_like_program hreach hwords himm hjumps honly (by decide)
  refine ⟨hreach, himm, hjumps, honly, rfl, _, read, hwords, hread, ?_, ?_⟩
  · exact hinstrs.trans (by decide)
  · exact hlisting.trans (by decide +kernel)

end PulseAsm
