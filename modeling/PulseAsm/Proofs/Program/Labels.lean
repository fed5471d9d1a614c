import PulseAsm.Proofs.Program.Faults

/-!
# Resolving labels

Labels are resolved before anything is encoded, so a label that is not bound is reported
even if a line before it does not encode. If all are bound, assembling looks at nothing
but the instructions with their labels replaced (`assemble_of_bound`): neither the
addresses of the lines nor the rest of the table matter, and a reference may lead forward
as well as backward.
-/

namespace PulseAsm

variable {lines lines' : List Line} {labels labels' : LabelTable}

/-! ### Labels that are not bound -/

theorem Instr.exists_resolve_iff {i : Instr} {addr : ℕ} :
    (∃ j, i.resolve labels addr = .ok j) ↔ i.Bound labels := by
  constructor
  · rintro ⟨j, hj⟩ name hname
    obtain ⟨operands, hops, -⟩ := bind_eq_ok_iff.mp hj
    obtain ⟨o, -, ho⟩ := exists_mem_of_mapM hops hname
    exact Operand.exists_resolve_iff.mp ⟨o, ho⟩ name rfl
  · intro h
    exact ⟨_, h.resolve addr⟩

theorem Instr.not_bound_iff {i : Instr} :
    ¬ i.Bound labels ↔ ∃ name, .label name ∈ i.operands ∧ labels.lookup name = none := by
  simp only [Instr.Bound, not_forall, not_exists, exists_prop]
  refine exists_congr fun name => and_congr_right fun _ => ?_
  exact Option.eq_none_iff_forall_ne_some.symm

/-- Nothing that the encoder complains about is a label that is not bound. -/
theorem Instr.Rejected.ne_undefinedLabel {i : Instr} {e : Error} (h : i.Rejected e) (name : String) (addr : ℕ) :
    e ≠ .undefinedLabel name addr := by
  cases h with
  | field _ _ _ _ _ _ h => cases h <;> simp
  | _ => simp

/-- A label that is not bound is reported exactly if it is the first of its line, and the
labels of all lines before are bound. -/
theorem assemble_eq_undefinedLabel_iff {name : String} {addr : ℕ} :
    assemble lines labels = .error (.undefinedLabel name addr) ↔
      ∃ pre l post, lines = pre ++ l :: post ∧ (∀ l' ∈ pre, l'.instr.Bound labels) ∧
        l.instr.FirstUnbound labels name ∧ l.addr = addr := by
  rw [assemble_eq_error_iff]
  constructor
  · rintro ⟨l, h⟩
    cases h with
    | @resolve pre post _ _ hlines hpre h =>
      obtain ⟨name', hname, he⟩ := Instr.resolve_eq_error_iff.mp h
      cases he
      exact ⟨pre, l, post, hlines, fun l' hl' => Instr.exists_resolve_iff.mp (hpre l' hl'), hname, rfl⟩
    | encode _ _ _ h => exact absurd rfl ((encode_eq_error_iff.mp h).ne_undefinedLabel name addr)
  · rintro ⟨pre, l, post, hlines, hpre, hname, rfl⟩
    exact ⟨l, .resolve hlines (fun l' hl' => Instr.exists_resolve_iff.mpr (hpre l' hl'))
      (Instr.resolve_eq_error_iff.mpr ⟨name, hname, rfl⟩)⟩

/-- A label that is not bound is reported as soon as there is one anywhere. -/
theorem exists_undefinedLabel_iff :
    (∃ name addr, assemble lines labels = .error (.undefinedLabel name addr)) ↔
      ∃ l ∈ lines, ¬ l.instr.Bound labels := by
  constructor
  · rintro ⟨name, addr, h⟩
    obtain ⟨pre, l, post, rfl, -, hname, -⟩ := assemble_eq_undefinedLabel_iff.mp h
    exact ⟨l, List.mem_append_cons_self, Instr.not_bound_iff.mpr ⟨name, hname.mem⟩⟩
  · rintro ⟨l, hl, hl'⟩
    cases hres : lines.mapM (fun l => l.instr.resolve labels l.addr) with
    | ok is => exact absurd (Instr.exists_resolve_iff.mp (exists_mapM_iff.mp ⟨is, hres⟩ l hl)) hl'
    | error e =>
      obtain ⟨first, -, h⟩ := exists_of_mapM_error hres
      obtain ⟨name, -, rfl⟩ := Instr.resolve_eq_error_iff.mp h
      exact ⟨name, first.addr, bind_eq_error_iff.mpr (Or.inl hres)⟩

/-! ### Labels that are bound -/

theorem mapM_resolve_of_bound (h : ∀ l ∈ lines, l.instr.Bound labels) :
    lines.mapM (fun l => l.instr.resolve labels l.addr) = .ok (lines.map fun l => l.instr.withAddresses labels) := by
  rw [mapM_eq_ok_iff, List.forall₂_map_right_iff, List.forall₂_same]
  intro l hl
  exact (h l hl).resolve l.addr

/-- If all labels are bound, only the instructions count. -/
theorem assemble_of_bound (h : ∀ l ∈ lines, l.instr.Bound labels) :
    assemble lines labels =
      List.flatten <$> (lines.map (·.instr)).mapM fun i => (i.withAddresses labels).words := by
  unfold assemble
  rw [mapM_resolve_of_bound h, List.mapM_map, map_eq_pure_bind]
  show (lines.map fun l => l.instr.withAddresses labels).mapM Instr.words >>= _ = _
  rw [List.mapM_map]
  rfl

/-- If all labels are bound, assembling succeeds exactly if every line encodes. -/
theorem exists_assemble_iff_of_bound (h : ∀ l ∈ lines, l.instr.Bound labels) :
    (∃ words, assemble lines labels = .ok words) ↔
      ∀ l ∈ lines, ∃ w, encode (l.instr.withAddresses labels) = .ok w := by
  rw [exists_assemble_iff]
  refine forall₂_congr fun l hl => ?_
  rw [(h l hl).resolve l.addr]
  simp

/-- If all labels are bound, the words are those of the lines, one line after the other, with
zeros in second slots. -/
theorem assemble_eq_ok_iff_of_bound (h : ∀ l ∈ lines, l.instr.Bound labels) {words : List Word} :
    assemble lines labels = .ok words ↔ ∃ blocks, words = blocks.flatten ∧
      List.Forall₂ (fun l block => ∃ w, encode (l.instr.withAddresses labels) = .ok w ∧
        block = w :: List.replicate (slotsOf l.instr.mnemonic - 1) 0) lines blocks := by
  have hwords : ∀ (l : Line) (block : List Word), (l.instr.withAddresses labels).words = .ok block ↔
      ∃ w, encode (l.instr.withAddresses labels) = .ok w ∧
        block = w :: List.replicate (slotsOf l.instr.mnemonic - 1) 0 := by
    intro l block
    refine bind_eq_ok_iff.trans (exists_congr fun w => and_congr_right fun _ => ?_)
    exact (Except.ok.injEq _ _).to_iff.trans eq_comm
  rw [assemble_eq_ok_iff, mapM_resolve_of_bound h]
  simp only [← hwords]
  constructor
  · rintro ⟨is, blocks, his, hblocks, rfl⟩
    cases his
    exact ⟨blocks, rfl, List.forall₂_map_left_iff.mp (mapM_eq_ok_iff.mp hblocks)⟩
  · rintro ⟨blocks, rfl, hblocks⟩
    exact ⟨_, blocks, rfl, mapM_eq_ok_iff.mpr (List.forall₂_map_left_iff.mpr hblocks), rfl⟩

/-- If all labels are bound, assembling fails over the first line that does not encode. -/
theorem assemble_eq_error_iff_of_bound (h : ∀ l ∈ lines, l.instr.Bound labels) {e : Error} :
    assemble lines labels = .error e ↔
      ∃ pre l post, lines = pre ++ l :: post ∧ (∀ l' ∈ pre, ∃ w, encode (l'.instr.withAddresses labels) = .ok w) ∧
        encode (l.instr.withAddresses labels) = .error e := by
  rw [assemble_eq_error_iff]
  constructor
  · rintro ⟨l, hstops⟩
    cases hstops with
    | resolve hlines _ hl =>
      rw [(h l (hlines ▸ List.mem_append_cons_self)).resolve l.addr] at hl
      cases hl
    | @encode pre post _ _ hlines _ hpre hl => exact ⟨pre, l, post, hlines, hpre, hl⟩
  · rintro ⟨pre, l, post, hlines, hpre, hl⟩
    exact ⟨l, .encode hlines (fun l' hl' => Instr.exists_resolve_iff.mpr (h l' hl')) hpre hl⟩

/-! ### What does not matter -/

theorem Operand.resolve_congr {o : Operand} {addr : ℕ}
    (h : ∀ name, o = .label name → labels'.lookup name = labels.lookup name) :
    o.resolve labels' addr = o.resolve labels addr := by
  cases o with
  | label name => simp only [resolve, h name rfl]
  | _ => rfl

/-- Assembling asks the table for the names that are referred to, and for nothing else. -/
theorem assemble_congr
    (h : ∀ l ∈ lines, ∀ name, .label name ∈ l.instr.operands → labels'.lookup name = labels.lookup name) :
    assemble lines labels' = assemble lines labels := by
  have hres : lines.mapM (fun l => l.instr.resolve labels' l.addr) =
      lines.mapM fun l => l.instr.resolve labels l.addr := by
    refine mapM_congr fun l hl => ?_
    unfold Instr.resolve
    rw [mapM_congr fun o ho => Operand.resolve_congr fun name hname => h l hl name (hname ▸ ho)]
  unfold assemble
  rw [hres]

theorem lookup_insert_of_ne {name other : String} (hne : other ≠ name) (a : ℕ) (before after : LabelTable) :
    (before ++ (name, a) :: after).lookup other = (before ++ after).lookup other := by
  rw [List.lookup_append, List.lookup_append, List.lookup_cons, beq_false_of_ne hne]

/-- If all labels are bound, it does not matter where the lines stand. -/
theorem assemble_of_instrs (h : lines'.map (·.instr) = lines.map (·.instr))
    (hbound : ∀ l ∈ lines, l.instr.Bound labels) : assemble lines' labels = assemble lines labels := by
  have hbound' : ∀ l ∈ lines', l.instr.Bound labels := by
    intro l hl
    obtain ⟨l', hl', heq⟩ := List.mem_map.mp (h ▸ List.mem_map_of_mem hl)
    exact heq ▸ hbound l' hl'
  rw [assemble_of_bound hbound', h, ← assemble_of_bound hbound]

/-- **Labels are resolved exactly**: assembling reports a label that is not bound exactly if
there is one, and then the first one of the first line that has one, with the address of
that line, whether or not all lines would encode. Otherwise every label is replaced by its
address, assembling succeeds exactly if every line encodes then, and gives the words of the
lines in their order, with zeros in second slots. If it fails it reports the first line that
does not encode. The outcome depends on the table only through the names that
are referred to, so labels that are not may be added anywhere in it; and it does not depend
on where the lines stand, so a reference may lead forward as well as backward. -/
theorem labels_resolve_exactly (lines : List Line) (labels : LabelTable) :
    ((∃ name addr, assemble lines labels = .error (.undefinedLabel name addr)) ↔
      ∃ l ∈ lines, ∃ name, .label name ∈ l.instr.operands ∧ labels.lookup name = none) ∧
    (∀ name addr, assemble lines labels = .error (.undefinedLabel name addr) ↔
      ∃ pre l post, lines = pre ++ l :: post ∧ (∀ l' ∈ pre, l'.instr.Bound labels) ∧
        l.instr.FirstUnbound labels name ∧ l.addr = addr) ∧
    ((∀ l ∈ lines, l.instr.Bound labels) →
      (∀ l ∈ lines, l.instr.resolve labels l.addr = .ok (l.instr.withAddresses labels)) ∧
      ((∃ words, assemble lines labels = .ok words) ↔
        ∀ l ∈ lines, ∃ w, encode (l.instr.withAddresses labels) = .ok w) ∧
      (∀ e, assemble lines labels = .error e ↔
        ∃ pre l post, lines = pre ++ l :: post ∧
          (∀ l' ∈ pre, ∃ w, encode (l'.instr.withAddresses labels) = .ok w) ∧
          encode (l.instr.withAddresses labels) = .error e) ∧
      (∀ words, assemble lines labels = .ok words ↔ ∃ blocks, words = blocks.flatten ∧
        List.Forall₂ (fun l block => ∃ w, encode (l.instr.withAddresses labels) = .ok w ∧
          block = w :: List.replicate (slotsOf l.instr.mnemonic - 1) 0) lines blocks) ∧
      ∀ lines' : List Line, lines'.map (·.instr) = lines.map (·.instr) →
        assemble lines' labels = assemble lines labels) ∧
    (∀ labels' : LabelTable,
      (∀ l ∈ lines, ∀ name, .label name ∈ l.instr.operands → labels'.lookup name = labels.lookup name) →
      assemble lines labels' = assemble lines labels) ∧
    ∀ before after name a, labels = before ++ after → (∀ l ∈ lines, .label name ∉ l.instr.operands) →
      assemble lines (before ++ (name, a) :: after) = assemble lines labels := by
  refine ⟨?_, fun name addr => assemble_eq_undefinedLabel_iff, fun hbound => ⟨fun l hl => (hbound l hl).resolve l.addr,
    exists_assemble_iff_of_bound hbound, fun e => assemble_eq_error_iff_of_bound hbound,
    fun words => assemble_eq_ok_iff_of_bound hbound, fun lines' h => assemble_of_instrs h hbound⟩, fun labels' => assemble_congr, ?_⟩
  · simp only [exists_undefinedLabel_iff, Instr.not_bound_iff]
  · rintro before after name a rfl hname
    refine assemble_congr fun l hl other hother => lookup_insert_of_ne ?_ a before after
    rintro rfl
    exact hname l hl hother

/-- A register number that is too large, a jump back to a label that is bound, and a jump to
one that is not. -/
def lateLabel : List Line :=
  [⟨{ mnemonic := "regwi", operands := [.value 0, .value 40, .value 1] }, 0, 0, none⟩,
    ⟨{ mnemonic := "jnz", operands := [.label "BACK"] }, 1, 1, none⟩,
    ⟨{ mnemonic := "jnz", operands := [.label "AWAY"] }, 2, 2, none⟩]

/-- The last line is reported, though the first one does not encode; the first one is as soon
as the label is bound, also if the table has more than that. -/
theorem labels_resolve_exactly_late_label :
    assemble lateLabel [("BACK", 0)] = .error (.undefinedLabel "AWAY" 2) ∧
      assemble lateLabel [("BACK", 0), ("SPARE", 7), ("AWAY", 9)] =
        .error (.range ⟨"regwi.op1", 40, "[0, 31]"⟩) := by
  obtain ⟨-, hunbound, -⟩ := labels_resolve_exactly lateLabel [("BACK", 0)]
  obtain ⟨-, -, hbound, -, hinsert⟩ := labels_resolve_exactly lateLabel ([("BACK", 0)] ++ [("AWAY", 9)])
  constructor
  · refine (hunbound _ _).mpr ⟨lateLabel.take 2, _, [], rfl, ?_, ⟨[], [], rfl, rfl, by simp⟩, rfl⟩
    simp [lateLabel, Instr.Bound]
  · have hall : ∀ l ∈ lateLabel, l.instr.Bound ([("BACK", 0)] ++ [("AWAY", 9)]) := by
      simp [lateLabel, Instr.Bound, List.lookup_cons]
    have hspare := hinsert [("BACK", 0)] [("AWAY", 9)] "SPARE" 7 rfl (by simp [lateLabel])
    exact hspare.trans (((hbound hall).2.2.1 _).mpr ⟨[], _, lateLabel.drop 1, rfl, by simp, rfl⟩)

end PulseAsm
