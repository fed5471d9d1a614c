import PulseAsm.Proofs.Instr.Rejection
import PulseAsm.Proofs.Program.Encodable

/-!
# Where assembling fails

The assembler stops at the first line with a label that is not bound or, if all labels
are bound, at the first line that does not encode (`StopsAt`, `assemble_eq_error_iff`).
An instruction that is well formed (`Instr.WellFormed`) does not encode only if a number
is out of range.

Appending checks the mnemonic and the number of operands, and nothing else; the rest is
up to whoever appends. All steps but those that append an instruction of the caller's own
choice append instructions that are well formed and whose labels are bound, and stay so
whatever is done later (`Script.Appends.wellFormed`).
-/

namespace PulseAsm

open Text

/-! ### Instructions -/

/-- The operand is of the kind that the field holds: an operator of its space, or a number,
for which a label stands as well. -/
def Field.Suits (f : Field) : Operand → Prop
  | .op o => f.kind = .op o.space
  | .value _ | .label _ => f.kind.isOp = false

instance (f : Field) : ∀ o : Operand, Decidable (f.Suits o)
  | .op o => inferInstanceAs (Decidable (f.kind = .op o.space))
  | .value _ | .label _ => inferInstanceAs (Decidable (f.kind.isOp = false))

namespace Instr

/-- The instruction is one of the instruction set, with the right number of operands, and
updates the flags only if it can. -/
structure Known (i : Instr) (d : Descriptor) : Prop where
  descriptor : Descriptor.ofMnemonic? i.mnemonic = some d
  arity : i.operands.length = d.arity
  flags : i.updateFlags → d.flagBit.isSome

/-- The instruction is known, and each operand is of the kind that its fields hold. -/
def WellFormed (i : Instr) : Prop :=
  ∃ d, i.Known d ∧ ∀ f ∈ d.fields, f.Suits (i.operands.getD f.operand (.value 0))

/-- An instruction that does not ask for an update of the flags. -/
theorem WellFormed.plain {i : Instr} {d : Descriptor} (hd : Descriptor.ofMnemonic? i.mnemonic = some d)
    (harity : i.operands.length = d.arity) (hflags : i.updateFlags = false)
    (hsuits : ∀ f ∈ d.fields, f.Suits (i.operands.getD f.operand (.value 0))) : i.WellFormed :=
  ⟨d, ⟨hd, harity, fun h => absurd (hflags.symm.trans h) Bool.false_ne_true⟩, hsuits⟩

/-- The labels of the instruction are bound. -/
def Bound (labels : LabelTable) (i : Instr) : Prop :=
  ∀ name, .label name ∈ i.operands → ∃ a, labels.lookup name = some a

/-- The first label of the instruction that is not bound. -/
def FirstUnbound (labels : LabelTable) (i : Instr) (name : String) : Prop :=
  ∃ before after, i.operands = before ++ .label name :: after ∧ labels.lookup name = none ∧
    ∀ n, .label n ∈ before → ∃ a, labels.lookup n = some a

end Instr

section Encoding

variable {mnemonic : String} {f : Field} {o : Operand} {e : Error}

/-- A field complains about the kind of its operand or about a number that is out of range. -/
theorem Field.Rejects.fault_cases (h : f.Rejects mnemonic o e) :
    (∃ r, e = .range r) ∨ ∃ expected, e = .operandKind mnemonic f.operand expected := by
  cases h with
  | imm | width => exact Or.inl ⟨_, rfl⟩
  | _ => exact Or.inr ⟨_, rfl⟩

/-- About an operand of the right kind it complains only if it is out of range. -/
theorem Field.Suits.range_of_rejects (hs : f.Suits o) (ho : ∀ name, o ≠ .label name)
    (h : f.Rejects mnemonic o e) : ∃ r, e = .range r := by
  cases h with
  | @operator space o hk hne =>
    have hop : f.kind.isOp := by rw [hk]; rfl
    cases o with
    | op op => exact absurd (FieldKind.op.inj (hk.symm.trans hs)).symm (hne op rfl)
    | _ => exact absurd hop (ne_true_of_eq_false hs)
  | number hk =>
    have hop : f.kind.isOp := by rw [show f.kind = .op _ from hs]; rfl
    exact absurd hop (ne_true_of_eq_false hk)
  | address => exact absurd rfl (ho _)
  | _ => exact ⟨_, rfl⟩

/-- A known instruction does not encode only because of a field. -/
theorem Instr.Known.exists_rejects {i : Instr} {d : Descriptor} (hi : i.Known d) (h : encode i = .error e) :
    ∃ f ∈ d.fields, f.Rejects i.mnemonic (i.operands.getD f.operand (.value 0)) e := by
  obtain ⟨hd, hm⟩ := Descriptor.ofMnemonic?_eq_some_iff.mp hi.descriptor
  rcases (encode_eq_error_of_mem hd hm).mp h with ⟨hlen, -⟩ | ⟨-, h | ⟨-, h⟩⟩
  · exact absurd hi.arity hlen
  · obtain ⟨pre, f, post, hfields, -, hf⟩ := encodeFields_eq_error_iff.mp h
    exact ⟨f, hfields ▸ List.mem_append_cons_self, hf⟩
  · obtain ⟨⟨hu, hbit⟩, -⟩ := Descriptor.encodeFlags_eq_error_iff.mp h
    have hsome := hi.flags hu
    rw [hbit] at hsome
    cases hsome

end Encoding

/-! ### Labels -/

section Labels

variable {labels : LabelTable} {addr : ℕ} {e : Error} {i : Instr}

theorem Operand.resolve_eq_error_iff {o : Operand} :
    o.resolve labels addr = .error e ↔
      ∃ name, o = .label name ∧ labels.lookup name = none ∧ e = .undefinedLabel name addr := by
  cases o with
  | label name =>
    cases hlookup : labels.lookup name with
    | some a => simp only [resolve, hlookup, Operand.label.injEq, exists_eq_left', reduceCtorEq, false_and]
    | none =>
      simp only [resolve, hlookup, Except.error.injEq, Operand.label.injEq, exists_eq_left', true_and]
      exact eq_comm
  | _ => simp [resolve]

theorem Operand.exists_resolve_iff {o : Operand} :
    (∃ o', o.resolve labels addr = .ok o') ↔ ∀ name, o = .label name → ∃ a, labels.lookup name = some a := by
  cases o with
  | label name =>
    cases hlookup : labels.lookup name with
    | some a => simp [resolve, hlookup]
    | none => simp only [resolve, hlookup, Operand.label.injEq, forall_eq', reduceCtorEq, exists_false]
  | _ => simp [resolve]

/-- Resolving fails over the first label that is not bound, and over nothing else. -/
theorem Instr.resolve_eq_error_iff :
    i.resolve labels addr = .error e ↔ ∃ name, i.FirstUnbound labels name ∧ e = .undefinedLabel name addr := by
  rw [Instr.resolve, bind_eq_error_iff, mapM_eq_error_iff]
  constructor
  · rintro (⟨before, o, after, hops, hbefore, ho⟩ | ⟨operands, -, h⟩)
    · obtain ⟨name, rfl, hnone, he⟩ := Operand.resolve_eq_error_iff.mp ho
      refine ⟨name, ⟨before, after, hops, hnone, ?_⟩, he⟩
      intro n hn
      exact Operand.exists_resolve_iff.mp (hbefore _ hn) n rfl
    · cases h
  · rintro ⟨name, ⟨before, after, hops, hnone, hbefore⟩, he⟩
    refine Or.inl ⟨before, .label name, after, hops, ?_, Operand.resolve_eq_error_iff.mpr ⟨name, rfl, hnone, he⟩⟩
    rintro o ho
    refine Operand.exists_resolve_iff.mpr ?_
    rintro n rfl
    exact hbefore n ho

theorem Instr.FirstUnbound.mem {name : String} (h : i.FirstUnbound labels name) :
    .label name ∈ i.operands ∧ labels.lookup name = none := by
  obtain ⟨before, after, hops, hnone, -⟩ := h
  exact ⟨hops ▸ List.mem_append_cons_self, hnone⟩

theorem Instr.Bound.resolve (h : i.Bound labels) (addr : ℕ) :
    i.resolve labels addr = .ok (i.withAddresses labels) := by
  cases hr : i.resolve labels addr with
  | ok j => rw [Instr.resolve_eq_ok hr]
  | error e =>
    obtain ⟨name, hname, -⟩ := Instr.resolve_eq_error_iff.mp hr
    obtain ⟨a, ha⟩ := h name hname.mem.1
    rw [hname.mem.2] at ha
    cases ha

theorem Instr.Known.withAddresses {d : Descriptor} (h : i.Known d) : (i.withAddresses labels).Known d :=
  ⟨h.descriptor, (List.length_map ..).trans h.arity, h.flags⟩

theorem Instr.getD_withAddresses (k : ℕ) :
    (i.withAddresses labels).operands.getD k (.value 0) = (i.operands.getD k (.value 0)).withAddress labels := by
  simp only [Instr.withAddresses, List.getD_eq_getElem?_getD, List.getElem?_map]
  cases i.operands[k]? <;> rfl

/-- A well-formed instruction whose labels are bound encodes unless a number is out of range. -/
theorem Instr.WellFormed.encode_eq_error (h : i.WellFormed) (hb : i.Bound labels)
    (he : encode (i.withAddresses labels) = .error e) : ∃ r, e = .range r := by
  obtain ⟨d, hknown, hsuits⟩ := h
  obtain ⟨f, hf, he⟩ := hknown.withAddresses.exists_rejects he
  have hsuits := hsuits f hf
  rw [Instr.getD_withAddresses] at he
  cases ho : i.operands.getD f.operand (.value 0) with
  | op o =>
    rw [ho] at he hsuits
    exact hsuits.range_of_rejects (o := .op o) (by simp) he
  | value v =>
    rw [ho] at he hsuits
    exact hsuits.range_of_rejects (o := .value v) (by simp) he
  | label name =>
    have hmem : .label name ∈ i.operands := by
      rw [List.getD_eq_getElem?_getD] at ho
      cases hget : i.operands[f.operand]? with
      | none => simp [hget] at ho
      | some o =>
        rw [hget, Option.getD_some] at ho
        exact ho ▸ List.mem_of_getElem? hget
    obtain ⟨a, ha⟩ := hb name hmem
    rw [ho] at he hsuits
    simp only [Operand.withAddress, ha] at he
    exact Field.Suits.range_of_rejects (o := .value a) hsuits (by simp) he

end Labels

/-! ### Programs -/

/-- The line at which the assembler stops, and with which error: the first line with a
label that is not bound or, if all are bound, the first that does not encode. -/
inductive StopsAt (lines : List Line) (labels : LabelTable) : Line → Error → Prop where
  | resolve {pre post : List Line} {l : Line} {e : Error} (hlines : lines = pre ++ l :: post)
      (hpre : ∀ l' ∈ pre, ∃ i, l'.instr.resolve labels l'.addr = .ok i)
      (h : l.instr.resolve labels l.addr = .error e) : StopsAt lines labels l e
  | encode {pre post : List Line} {l : Line} {e : Error} (hlines : lines = pre ++ l :: post)
      (hall : ∀ l' ∈ lines, ∃ i, l'.instr.resolve labels l'.addr = .ok i)
      (hpre : ∀ l' ∈ pre, ∃ w, encode (l'.instr.withAddresses labels) = .ok w)
      (h : encode (l.instr.withAddresses labels) = .error e) : StopsAt lines labels l e

theorem StopsAt.mem {lines : List Line} {labels : LabelTable} {l : Line} {e : Error} (h : StopsAt lines labels l e) :
    l ∈ lines := by
  cases h <;> simp [*]

theorem Instr.words_eq_ok_iff {i : Instr} : (∃ ws, i.words = .ok ws) ↔ ∃ w, PulseAsm.encode i = .ok w := by
  simp only [Instr.words, bind_eq_ok_iff]
  constructor
  · rintro ⟨ws, w, hw, -⟩
    exact ⟨w, hw⟩
  · rintro ⟨w, hw⟩
    exact ⟨_, w, hw, rfl⟩

theorem Instr.words_eq_error_iff {i : Instr} {e : Error} : i.words = .error e ↔ PulseAsm.encode i = .error e := by
  rw [Instr.words, bind_eq_error_iff]
  constructor
  · rintro (h | ⟨w, -, h⟩)
    · exact h
    · cases h
  · exact Or.inl

/-- Assembling fails exactly if the assembler stops at a line. -/
theorem assemble_eq_error_iff {lines : List Line} {labels : LabelTable} {e : Error} :
    assemble lines labels = .error e ↔ ∃ l, StopsAt lines labels l e := by
  unfold assemble
  rw [bind_eq_error_iff, mapM_eq_error_iff]
  constructor
  · rintro (⟨pre, l, post, hlines, hpre, h⟩ | ⟨is, his, h⟩)
    · exact ⟨l, .resolve hlines hpre h⟩
    · rcases bind_eq_error_iff.mp h with h | ⟨blocks, -, h⟩
      · rw [eq_map_of_mapM_resolve his, List.mapM_map, mapM_eq_error_iff] at h
        obtain ⟨pre, l, post, hlines, hpre, h⟩ := h
        exact ⟨l, .encode hlines (exists_mapM_iff.mp ⟨is, his⟩) (fun l' hl' => Instr.words_eq_ok_iff.mp (hpre l' hl'))
          (Instr.words_eq_error_iff.mp h)⟩
      · cases h
  · rintro ⟨l, h⟩
    cases h with
    | resolve hlines hpre h => exact Or.inl ⟨_, l, _, hlines, hpre, h⟩
    | encode hlines hall hpre h =>
      obtain ⟨is, his⟩ := exists_mapM_iff.mpr hall
      refine Or.inr ⟨is, his, bind_eq_error_iff.mpr (Or.inl ?_)⟩
      rw [eq_map_of_mapM_resolve his, List.mapM_map, mapM_eq_error_iff]
      exact ⟨_, l, _, hlines, fun l' hl' => Instr.words_eq_ok_iff.mpr (hpre l' hl'), Instr.words_eq_error_iff.mpr h⟩

/-! ### Macros -/

/-- The step appends an instruction of the caller's own choice. -/
def Step.IsRaw : Step → Prop
  | .instr .. => True
  | _ => False

theorem Build.wellFormed_loadInstr (labels : LabelTable) (page reg : ℕ) (s : LoadStep) :
    (loadInstr page reg s).WellFormed ∧ (loadInstr page reg s).Bound labels := by
  cases s with
  | write v => exact ⟨.plain rfl rfl rfl (of_decide_eq_true rfl), by simp [Instr.Bound, loadInstr]⟩
  | shiftLeft count => exact ⟨.plain rfl rfl rfl (of_decide_eq_true rfl), by simp [Instr.Bound, loadInstr]⟩
  | add v => exact ⟨.plain rfl rfl rfl (of_decide_eq_true rfl), by simp [Instr.Bound, loadInstr]⟩

/-- What macros emit is well formed, and its labels are bound. -/
theorem Program.Emits.wellFormed {p : Program} {n : ℕ} {i : Instr} (h : p.Emits n i) :
    i.WellFormed ∧ i.Bound p.labels := by
  cases h with
  | load => exact Build.wellFormed_loadInstr _ _ _ _
  | countDown =>
    exact ⟨⟨_, ⟨rfl, rfl, fun _ => rfl⟩, of_decide_eq_true rfl⟩, by simp [Instr.Bound, Build.countDownInstr]⟩
  | branch hlabel =>
    refine ⟨.plain rfl rfl rfl (of_decide_eq_true rfl), ?_⟩
    intro name hname
    cases List.mem_singleton.mp hname
    exact ⟨_, hlabel⟩
  | play => exact ⟨.plain rfl rfl rfl (of_decide_eq_true rfl), by simp [Instr.Bound, Build.playInstr]⟩
  | port => exact ⟨.plain rfl rfl rfl (of_decide_eq_true rfl), by simp [Instr.Bound, Build.portInstr]⟩
  | marker => exact ⟨.plain rfl rfl rfl (of_decide_eq_true rfl), by simp [Instr.Bound, Build.markerInstr]⟩
  | sync => exact ⟨.plain rfl rfl rfl (of_decide_eq_true rfl), by simp [Instr.Bound]⟩
  | wait => exact ⟨.plain rfl rfl rfl (of_decide_eq_true rfl), by simp [Instr.Bound]⟩
  | finish => exact ⟨.plain rfl rfl rfl (of_decide_eq_true rfl), by simp [Instr.Bound]⟩

/-- A step that is not raw appends instructions that are well formed, and whose labels are
bound. -/
theorem Step.Makes.wellFormed {board : Board} {p : Program} (hp : Reachable board p) {s : Step} {i : Instr}
    (h : s.Makes p (.append i)) (hs : ¬ s.IsRaw) : i.WellFormed ∧ i.Bound p.labels := by
  obtain ⟨hboard, hvalid⟩ := hp.board_eq
  cases s with
  | writeImm =>
    cases h
    exact Build.wellFormed_loadInstr _ _ _ _
  | instr => exact absurd trivial hs
  | _ => exact (h.emits trivial hp.coherent hp.laid (hboard ▸ hvalid)).wellFormed

/-! ### Scripts -/

theorem Program.lines_ofBoard {board : Board} {p : Program} (h : Program.ofBoard board = .ok p) : p.lines = [] := by
  obtain ⟨-, registers, -, rfl⟩ := Program.ofBoard_eq_ok_iff.mp h
  rfl

/-- The lines that a step appends to a program, also if it fails. -/
def Step.newLines (s : Step) (p : Program) : List Line := (s.apply.apply p).2.lines.drop p.lines.length

/-- A line is one of those that a step of the script appends. -/
def Script.Appends (p : Program) (steps : List Step) (s : Step) (l : Line) : Prop :=
  ∃ pre post, steps = pre ++ s :: post ∧ l ∈ s.newLines (p.after pre)

theorem Step.lines_eq (s : Step) (p : Program) :
    (s.apply.apply p).2.lines = p.lines ++ s.newLines p ∧ ∀ l ∈ s.newLines p, s.Makes p (.append l.instr) := by
  obtain ⟨new, hnew, hall⟩ := (s.edits p).exists_lines
  have heq : s.newLines p = new := by rw [newLines, hnew, List.drop_left]
  rw [heq]
  exact ⟨hnew, hall⟩

theorem Program.after_append (p : Program) (pre post : List Step) : p.after (pre ++ post) = (p.after pre).after post :=
  List.foldl_append

theorem Program.extends_after (p : Program) (steps : List Step) : p.Extends (p.after steps) := by
  induction steps generalizing p with
  | nil => exact .refl p
  | cons s steps ih => exact (s.edits p).extends.trans (ih _)

namespace Script

variable {board : Board} {p : Program} {steps : List Step} {s : Step} {l : Line}

/-- Every new line is appended by a step. -/
theorem exists_appends (h : l ∈ (p.after steps).lines) : l ∈ p.lines ∨ ∃ s, Appends p steps s l := by
  induction steps generalizing p with
  | nil => exact Or.inl h
  | cons s steps ih =>
    rcases ih h with hl | ⟨s', pre, post, hsteps, hl⟩
    · rw [(s.lines_eq p).1, List.mem_append] at hl
      exact hl.imp_right fun hnew => ⟨s, [], steps, rfl, hnew⟩
    · exact Or.inr ⟨s', s :: pre, post, by rw [hsteps]; rfl, hl⟩

namespace Appends

theorem mem (h : Appends p steps s l) : l ∈ (p.after steps).lines := by
  obtain ⟨pre, post, rfl, hl⟩ := h
  obtain ⟨new, hnew⟩ := ((s.apply.apply (p.after pre)).2.extends_after post).lines
  have hafter : p.after (pre ++ s :: post) = (s.apply.apply (p.after pre)).2.after post :=
    p.after_append pre (s :: post)
  rw [hafter, hnew, (s.lines_eq _).1]
  simp [hl]

/-- What a step that is not raw appends is well formed, and its labels stay bound. -/
theorem wellFormed (hp : Reachable board p) (h : Appends p steps s l) (hs : ¬ s.IsRaw) :
    l.instr.WellFormed ∧ l.instr.Bound (p.after steps).labels := by
  obtain ⟨pre, post, rfl, hl⟩ := h
  obtain ⟨hwell, hbound⟩ := ((s.lines_eq _).2 l hl).wellFormed (hp.after pre) hs
  refine ⟨hwell, ?_⟩
  intro name hname
  obtain ⟨a, ha⟩ := hbound name hname
  rw [Program.after_append]
  exact ⟨a, ((p.after pre).extends_after (s :: post)).label name a ha⟩

end Appends

end Script

/-- Appending checks the mnemonic and the number of operands. -/
theorem Reachable.exists_descriptor {board : Board} {p : Program} (h : Reachable board p) :
    ∀ l ∈ p.lines, ∃ d, Descriptor.ofMnemonic? l.instr.mnemonic = some d ∧ l.instr.operands.length = d.arity := by
  refine h.induction
    (P := fun p => ∀ l ∈ p.lines, ∃ d, Descriptor.ofMnemonic? l.instr.mnemonic = some d ∧
      l.instr.operands.length = d.arity) ?_ ?_
  · intro p hp
    rw [Program.lines_ofBoard hp]
    exact List.forall_mem_nil _
  · intro c p q he hp
    cases he with
    | append comment hd hlen =>
      intro l hl
      rcases List.mem_append.mp hl with hl | hl
      · exact hp l hl
      · rw [List.mem_singleton.mp hl]
        exact ⟨_, hd, hlen⟩
    | _ => exact hp

/-- Whatever a step appends is known: no step asks for an update of the flags where that
cannot be. -/
theorem Script.Appends.known {board : Board} {p : Program} {steps : List Step} {s : Step} {l : Line}
    (hp : Reachable board p) (h : Appends p steps s l) : ∃ d, l.instr.Known d := by
  by_cases hs : s.IsRaw
  · obtain ⟨d, hd, hlen⟩ := (hp.after steps).exists_descriptor l h.mem
    refine ⟨d, hd, hlen, ?_⟩
    obtain ⟨pre, post, -, hl⟩ := h
    -- a raw instruction never asks for an update of the flags
    have hmakes := (s.lines_eq _).2 l hl
    intro hflags
    cases s with
    | instr mnemonic operands comment =>
      generalize l.instr = i at hmakes hflags
      cases hmakes
      cases hflags
    | _ => exact hs.elim
  · obtain ⟨d, hknown, -⟩ := (h.wellFormed hp hs).1
    exact ⟨d, hknown⟩

/-- What the assembler can complain about at a line: a number that is out of range or, in an
instruction that was appended raw, a label or the kind of an operand. -/
theorem Script.Appends.fault_cases {board : Board} {p : Program} {steps : List Step} {s : Step} {l : Line} {e : Error}
    (hp : Reachable board p) (hl : Appends p steps s l)
    (h : StopsAt (p.after steps).lines (p.after steps).labels l e) :
    (∃ r, e = .range r) ∨
      s.IsRaw ∧ ((∃ name, e = .undefinedLabel name l.addr) ∨
        ∃ k expected, e = .operandKind l.instr.mnemonic k expected) := by
  cases h with
  | resolve _ _ h =>
    obtain ⟨name, hname, rfl⟩ := Instr.resolve_eq_error_iff.mp h
    refine Or.inr ⟨?_, Or.inl ⟨name, rfl⟩⟩
    -- the labels of all other instructions were bound when they were appended
    by_contra hs
    obtain ⟨a, ha⟩ := (hl.wellFormed hp hs).2 name hname.mem.1
    rw [hname.mem.2] at ha
    cases ha
  | encode _ _ _ h =>
    by_cases hs : s.IsRaw
    · obtain ⟨d, hknown⟩ := hl.known hp
      obtain ⟨f, -, hf⟩ := hknown.withAddresses.exists_rejects h
      exact hf.fault_cases.imp_right fun hkind => ⟨hs, Or.inr ⟨_, hkind⟩⟩
    · obtain ⟨hwell, hbound⟩ := hl.wellFormed hp hs
      exact Or.inl (hwell.encode_eq_error hbound h)

/-- **Only raw instructions can be malformed**: let any steps be done on an empty program,
whether they succeed or fail. Every line was appended by one of them, and if that was not
a raw instruction, the line's instruction is well formed and its labels resolve. If
assembling fails, it stops at a line because a number is out of range, or because a label
is not bound or an operand is of the wrong kind in an instruction that was appended raw;
so never because of an unknown mnemonic, a wrong number of operands, or an update of the
flags where that cannot be. -/
theorem malformed_only_if_raw {board : Board} {p₀ : Program} (hboard : Program.ofBoard board = .ok p₀)
    (steps : List Step) :
    (∀ l ∈ (p₀.after steps).lines, ∃ s, Script.Appends p₀ steps s l) ∧
    (∀ s l, Script.Appends p₀ steps s l → ¬ s.IsRaw →
      l.instr.WellFormed ∧ ∃ i, l.instr.resolve (p₀.after steps).labels l.addr = .ok i) ∧
    ∀ e, (p₀.after steps).assemble = .error e →
      ∃ s l, Script.Appends p₀ steps s l ∧ StopsAt (p₀.after steps).lines (p₀.after steps).labels l e ∧
        ((∃ r, e = .range r) ∨
          s.IsRaw ∧ ((∃ name, e = .undefinedLabel name l.addr) ∨
            ∃ k expected, e = .operandKind l.instr.mnemonic k expected)) := by
  have hp : Reachable board p₀ := .start hboard
  have hall : ∀ l ∈ (p₀.after steps).lines, ∃ s, Script.Appends p₀ steps s l := by
    intro l hl
    refine (Script.exists_appends hl).resolve_left ?_
    rw [Program.lines_ofBoard hboard]
    exact List.not_mem_nil
  refine ⟨hall, ?_, ?_⟩
  · intro s l hl hs
    obtain ⟨hwell, hbound⟩ := hl.wellFormed hp hs
    exact ⟨hwell, _, hbound.resolve l.addr⟩
  · intro e he
    obtain ⟨l, hstops⟩ := assemble_eq_error_iff.mp he
    obtain ⟨s, hl⟩ := hall l hstops.mem
    exact ⟨s, l, hl, hstops, hl.fault_cases hp hstops⟩

/-- A raw jump to a label that is never bound, in a loop that is closed once too often: the
assembler stops at the jump, not at the branch of the loop. -/
theorem malformed_only_if_raw_unbound_label :
    ∃ p₀ s l, Program.ofBoard bareBoard = .ok p₀ ∧
      (p₀.after [.openLoop 3 none, .instr "jnz" [.label "AWAY"] none, .closeLoop, .closeLoop, .finish]).assemble =
        .error (.undefinedLabel "AWAY" 1) ∧
      Script.Appends p₀ [.openLoop 3 none, .instr "jnz" [.label "AWAY"] none, .closeLoop, .closeLoop, .finish] s l ∧
      s.IsRaw ∧ l.addr = 1 := by
  have herror : Program.assemble (bareProgram.after
      [.openLoop 3 none, .instr "jnz" [.label "AWAY"] none, .closeLoop, .closeLoop, .finish]) =
        .error (.undefinedLabel "AWAY" 1) := by rfl
  obtain ⟨s, l, hl, -, hcase⟩ := (malformed_only_if_raw ofBoard_bareBoard _).2.2 _ herror
  rcases hcase with ⟨r, hr⟩ | ⟨hs, ⟨name, hname⟩ | ⟨k, expected, hkind⟩⟩
  · cases hr
  · exact ⟨_, s, l, ofBoard_bareBoard, herror, hl, hs, (Error.undefinedLabel.inj hname).2.symm⟩
  · cases hkind

end PulseAsm
