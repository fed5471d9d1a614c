import PulseAsm.Proofs.Envelope
import PulseAsm.Proofs.Program.Edits

/-!
# Programs grow

Building never takes anything back: lines, registers, waves, envelopes and pulses are
appended, a label keeps its address, a name that an index has found stays where it is,
and a register that was handed out stays in use (`Program.Extends`). A register is handed out only while it is not in use
(`RegisterFile.Allocates`), so no two requests get the same one, and none gets a
register that the board reserves (`Program.Guarded`).
-/

namespace PulseAsm

/-! ### Growth -/

/-- One program grew out of another. -/
structure Program.Extends (p q : Program) : Prop where
  board : q.board = p.board
  lines : ∃ new, q.lines = p.lines ++ new
  label : ∀ name a, p.labels.lookup name = some a → q.labels.lookup name = some a
  perPage : q.registers.perPage = p.registers.perPage
  used : ∀ page addr, p.registers.isUsed page addr = true → q.registers.isUsed page addr = true
  nextAddr : p.nextAddr ≤ q.nextAddr
  registers : p.registers.registers <+: q.registers.registers
  waves : p.waves.entries <+: q.waves.entries
  waveIndex : ∀ name row, p.waves.indexOf? name = some row → q.waves.indexOf? name = some row
  envelopes : ∀ (ch : ℕ) (lib : EnvelopeLibrary), p.envelopes[ch]? = some lib →
    ∃ lib', q.envelopes[ch]? = some lib' ∧ lib.envelopes <+: lib'.envelopes ∧
      ∀ name e, lib.find? name = some e → lib'.find? name = some e
  pulses : p.pulses <+: q.pulses

theorem Program.library_eq_ok_iff {p : Program} {ch : ℕ} {lib : EnvelopeLibrary} :
    p.library ch = .ok lib ↔ p.envelopes[ch]? = some lib := by
  unfold library
  cases p.envelopes[ch]? <;> simp

namespace Program.Extends

variable {p q r : Program}

theorem refl (p : Program) : p.Extends p :=
  ⟨rfl, ⟨[], by simp⟩, fun _ _ h => h, rfl, fun _ _ h => h, Nat.le_refl _, List.prefix_rfl, List.prefix_rfl,
    fun _ _ h => h, fun _ lib h => ⟨lib, h, List.prefix_rfl, fun _ _ h => h⟩, List.prefix_rfl⟩

theorem trans (h₁ : p.Extends q) (h₂ : q.Extends r) : p.Extends r := by
  obtain ⟨new₁, hnew₁⟩ := h₁.lines
  obtain ⟨new₂, hnew₂⟩ := h₂.lines
  refine ⟨h₂.board.trans h₁.board, ⟨new₁ ++ new₂, ?_⟩, fun name a h => h₂.label name a (h₁.label name a h),
    h₂.perPage.trans h₁.perPage, fun page addr h => h₂.used page addr (h₁.used page addr h),
    Nat.le_trans h₁.nextAddr h₂.nextAddr, h₁.registers.trans h₂.registers, h₁.waves.trans h₂.waves,
    fun name row h => h₂.waveIndex name row (h₁.waveIndex name row h), ?_, h₁.pulses.trans h₂.pulses⟩
  · rw [hnew₂, hnew₁, List.append_assoc]
  · intro ch lib hlib
    obtain ⟨lib₁, hlib₁, hprefix₁, hfind₁⟩ := h₁.envelopes ch lib hlib
    obtain ⟨lib₂, hlib₂, hprefix₂, hfind₂⟩ := h₂.envelopes ch lib₁ hlib₁
    exact ⟨lib₂, hlib₂, hprefix₁.trans hprefix₂, fun name e h => hfind₂ name e (hfind₁ name e h)⟩

theorem of_edit {c : Change} (h : Edit c p q) : p.Extends q := by
  have hp := refl p
  cases h with
  | append => exact { hp with lines := ⟨_, rfl⟩, nextAddr := Nat.le_add_right _ _ }
  | bind =>
    refine { hp with label := fun name a h => ?_ }
    rw [List.lookup_append, h]
    rfl
  | allocate h =>
    have halloc := RegisterFile.allocates_of_allocate h
    exact { hp with
      perPage := halloc.perPage
      used := halloc.used
      registers := halloc.registers ▸ List.prefix_append _ _ }
  | wave h =>
    refine { hp with waves := ?_, waveIndex := fun name row hrow => WaveTable.indexOf?_of_add h hrow }
    rw [(WaveTable.add_eq_ok_iff.mp h).2.2]
    exact List.prefix_append _ _
  | @envelope _ ch name lib lib' e idata qdata hlib h =>
    refine { hp with envelopes := fun ch' lib₁ hlib₁ => ?_ }
    rw [library_eq_ok_iff] at hlib
    by_cases hch : ch = ch'
    · subst hch
      rw [hlib] at hlib₁
      cases hlib₁
      obtain ⟨n, hadds⟩ := (EnvelopeLibrary.add_eq_ok_iff (r := ⟨name, idata, qdata⟩)).mp h
      refine ⟨lib', List.getElem?_set_self (List.getElem?_eq_some_iff.mp hlib).1, ?_, fun _ _ => hadds.find?_eq_some⟩
      rw [hadds.library]
      exact List.prefix_append _ _
    · exact ⟨lib₁, by rw [List.getElem?_set_ne hch]; exact hlib₁, List.prefix_rfl, fun _ _ h => h⟩
  | pulse => exact { hp with pulses := List.prefix_append _ _ }
  | _ => exact { hp with }

end Program.Extends

theorem Edits.extends {A : Change → Prop} {p q : Program} (h : Edits A p q) : p.Extends q :=
  h.preserves (.refl p) fun _ _ _ _ he ih => ih.trans (.of_edit he)

/-- The lines that edits append hold instructions whose appending is admitted. -/
theorem Edits.exists_lines {A : Change → Prop} {p q : Program} (h : Edits A p q) :
    ∃ new, q.lines = p.lines ++ new ∧ ∀ l ∈ new, A (.append l.instr) := by
  refine h.preserves (P := fun q => ∃ new, q.lines = p.lines ++ new ∧ ∀ l ∈ new, A (.append l.instr))
    ⟨[], by simp, by simp⟩ fun c q r hc he ih => ?_
  obtain ⟨new, hnew, hall⟩ := ih
  cases he with
  | @append _ i d comment =>
    refine ⟨new ++ [⟨i, q.nextAddr, q.lines.length, comment⟩], ?_, ?_⟩
    · simp [Program.push, hnew]
    · intro l hl
      rcases List.mem_append.mp hl with hl | hl
      · exact hall l hl
      · rw [List.mem_singleton.mp hl]
        exact hc
  | _ => exact ⟨new, hnew, hall⟩

/-- Edits that neither enter nor leave a loop keep the open loops. -/
theorem Edits.loops_eq {A : Change → Prop} {p q : Program} (h : Edits A p q) (henter : ∀ reg, ¬ A (.enter reg))
    (hleave : ∀ reg, ¬ A (.leave reg)) : q.loops = p.loops := by
  refine h.preserves (P := fun q => q.loops = p.loops) rfl fun c q r hc he ih => ?_
  cases he with
  | enter reg => exact absurd hc (henter _)
  | leave => exact absurd hc (hleave _)
  | _ => exact ih

/-! ### Reserved registers -/

/-- The board reserves a register. -/
def Board.Reserves (board : Board) (page addr : ℕ) : Prop :=
  ∃ r ∈ Program.reserved board, r.page = page ∧ r.addr = some addr

/-- The registers that the board reserves are in use. -/
structure Program.Guarded (p : Program) : Prop where
  perPage : p.registers.perPage ≤ 32
  reserved : ∀ page addr, p.board.Reserves page addr → p.registers.isUsed page addr = true

theorem Program.Guarded.extends {p q : Program} (h : p.Guarded) (hpq : p.Extends q) : q.Guarded := by
  refine ⟨by rw [hpq.perPage]; exact h.perPage, fun page addr hr => ?_⟩
  rw [hpq.board] at hr
  exact hpq.used page addr (h.reserved page addr hr)

/-- Registers handed out one after the other are all in use in the end. -/
theorem Program.used_of_allocateAll {rs : List RegRequest} {f f' : RegisterFile}
    (h : allocateAll f rs = .ok f') (hf : f.perPage ≤ 32) :
    f'.perPage = f.perPage ∧ (∀ page addr, f.isUsed page addr = true → f'.isUsed page addr = true) ∧
      ∀ r ∈ rs, ∀ addr, r.addr = some addr → f'.isUsed r.page addr = true := by
  induction rs generalizing f with
  | nil =>
    cases h
    exact ⟨rfl, fun _ _ h => h, by simp⟩
  | cons r rs ih =>
    obtain ⟨⟨reg, g⟩, halloc, h⟩ := bind_eq_ok_iff.mp h
    have hg := RegisterFile.allocates_of_allocate halloc
    obtain ⟨hperPage, hused, hall⟩ := ih h (by rw [hg.perPage]; exact hf)
    refine ⟨hperPage.trans hg.perPage, fun page addr h => hused page addr (hg.used page addr h), ?_⟩
    rw [List.forall_mem_cons]
    refine ⟨fun addr haddr => ?_, hall⟩
    have htaken := hg.taken (Nat.lt_of_lt_of_le hg.addr_lt hf)
    rw [hg.page, hg.wish addr haddr] at htaken
    exact hused _ _ htaken

theorem Program.Guarded.ofBoard {board : Board} {p : Program} (h : Program.ofBoard board = .ok p) : p.Guarded := by
  obtain ⟨-, registers, hall, rfl⟩ := Program.ofBoard_eq_ok_iff.mp h
  have hempty : (RegisterFile.empty board.pages board.regsPerPage).perPage ≤ 32 := Nat.min_le_right _ _
  obtain ⟨hperPage, -, hused⟩ := Program.used_of_allocateAll hall hempty
  refine ⟨by rw [hperPage]; exact hempty, fun page addr hr => ?_⟩
  obtain ⟨r, hmem, rfl, haddr⟩ := hr
  exact hused r hmem addr haddr

end PulseAsm
