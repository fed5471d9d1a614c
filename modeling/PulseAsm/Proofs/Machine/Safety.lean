import PulseAsm.Proofs.Instr.NormalForm
import PulseAsm.Proofs.Machine.Control
import PulseAsm.Proofs.Machine.Frame

/-!
# Traps

What can go wrong when the machine meets a word. An instruction that comes from a word has
operands of the kinds and in the ranges of its fields, so the only fault left to it is a
page that the machine does not have; and then nothing has been written yet
(`execute_cases`).

An assembled program has a word that decodes at each of its addresses, and names no page
beyond the eighth. On a machine of eight pages it can only run off its end, or out of
steps.
-/

namespace PulseAsm

open Machine

/-! ### The operands of jumps -/

section Shapes

variable {i : Instr} {w : Word}

theorem exists_operands_jumpIf (henc : encode i = .ok w) (hact : Action.ofMnemonic i.mnemonic = .jumpIf) :
    ∃ (page src src' a : ℕ) (op : Operator), src < 32 ∧ src' < 32 ∧ page < 8 ∧ a < 2 ^ 16 ∧ op.space = .compare ∧
      i = ⟨"condj", [.value page, .value src, .op op, .value src', .value a], i.updateFlags⟩ := by
  obtain ⟨mnemonic, operands, u⟩ := i
  obtain rfl := mnemonic_of_jump.1 hact
  have hfields : (Descriptor.ofMnemonic? "condj").map (·.fields) =
      some [.page 0, .op 2 .compare, .reg 1 36, .reg 3 31, .addr 4] := rfl
  obtain ⟨hlen, haccepts⟩ := accepts_of_encode henc hfields
  match operands, hlen with
  | [o₀, o₁, o₂, o₃, o₄], _ =>
    obtain ⟨page, h₀, hpage⟩ := Field.accepts_page_iff.mp (haccepts (.page 0) (by simp))
    obtain ⟨src, h₁, hsrc⟩ := Field.accepts_reg_iff.mp (haccepts (.reg 1 36) (by simp))
    obtain ⟨op, h₂, hop⟩ := (Field.accepts_op_iff rfl).mp (haccepts (.op 2 .compare) (by simp))
    obtain ⟨src', h₃, hsrc'⟩ := Field.accepts_reg_iff.mp (haccepts (.reg 3 31) (by simp))
    obtain ⟨a, h₄, ha⟩ := Field.accepts_addr_iff.mp (haccepts (.addr 4) (by simp))
    cases h₀
    cases h₁
    cases h₂
    cases h₃
    cases h₄
    exact ⟨page, src, src', a, op, hsrc, hsrc', hpage, ha, hop, rfl⟩

theorem exists_operands_jumpNonzero (henc : encode i = .ok w) (hact : Action.ofMnemonic i.mnemonic = .jumpNonzero) :
    ∃ a : ℕ, a < 2 ^ 16 ∧ i = ⟨"jnz", [.value a], i.updateFlags⟩ := by
  obtain ⟨mnemonic, operands, u⟩ := i
  obtain rfl := mnemonic_of_jump.2.1 hact
  have hfields : (Descriptor.ofMnemonic? "jnz").map (·.fields) = some [.addr 0] := rfl
  obtain ⟨hlen, haccepts⟩ := accepts_of_encode henc hfields
  obtain ⟨o, rfl⟩ := List.length_eq_one_iff.mp hlen
  obtain ⟨a, h, ha⟩ := Field.accepts_addr_iff.mp (haccepts (.addr 0) (by simp))
  cases h
  exact ⟨a, ha, rfl⟩

theorem exists_operands_countDown (henc : encode i = .ok w) (hact : Action.ofMnemonic i.mnemonic = .countDown) :
    ∃ page dst a : ℕ, page < 8 ∧ dst < 32 ∧ a < 2 ^ 16 ∧
      i = ⟨"loopnz", [.value page, .value dst, .value a], i.updateFlags⟩ := by
  obtain ⟨mnemonic, operands, u⟩ := i
  obtain rfl := mnemonic_of_jump.2.2 hact
  have hfields : (Descriptor.ofMnemonic? "loopnz").map (·.fields) =
      some [.page 0, .reg 1 41, .reg 1 36, .addr 2] := rfl
  obtain ⟨hlen, haccepts⟩ := accepts_of_encode henc hfields
  obtain ⟨o₀, o₁, o₂, rfl⟩ := List.length_eq_three.mp hlen
  obtain ⟨page, h₀, hpage⟩ := Field.accepts_page_iff.mp (haccepts (.page 0) (by simp))
  obtain ⟨dst, h₁, hdst⟩ := Field.accepts_reg_iff.mp (haccepts (.reg 1 41) (by simp))
  obtain ⟨a, h₂, ha⟩ := Field.accepts_addr_iff.mp (haccepts (.addr 2) (by simp))
  cases h₀
  cases h₁
  cases h₂
  exact ⟨page, dst, a, hpage, hdst, ha, rfl⟩

end Shapes

/-- A comparison has a truth value on all operands. -/
theorem Operator.exists_holds? {o : Operator} (h : o.space = .compare) (a b : UInt32) : ∃ r, o.holds? a b = some r := by
  cases o <;> simp_all [Operator.space, Operator.holds?, em]

namespace Machine

/-! ### Faults of an instruction -/

section Faults

variable {m : Machine} {page reg : ℕ}

theorem read_of_le (h : m.pages.size ≤ page) (reg : ℕ) :
    (read page reg).apply m = (.error (.badRegister page reg), m) := by
  simp [read, Exec.apply_bind, regAt?, reg?, h]

theorem write_of_le (h : m.pages.size ≤ page) (reg : ℕ) (v : UInt32) (u : Bool) :
    (write page reg v u).apply m = (.error (.badRegister page reg), m) := by
  simp [write, Exec.apply_bind, read_of_le h]

/-- What an instruction comes to on a machine: it goes on and leaves as many pages as there
were, or it names a page that is not there and leaves all as it was. -/
def Settles (m : Machine) (res : Except Trap ℕ × Machine) : Prop :=
  (∃ next m', res = (.ok next, m') ∧ m'.pages.size = m.pages.size) ∨
    ∃ page reg : ℕ, res = (.error (.badRegister page reg), m) ∧ m.pages.size ≤ page ∧ page < 8

/-- An instruction that encodes settles, whatever the registers and flags are. -/
theorem execute_cases {i : Instr} {w : Word} (henc : encode i = .ok w) (pc : ℕ) (m : Machine) :
    m.Settles ((execute pc i).apply m) := by
  cases hact : Action.ofMnemonic i.mnemonic with
  | loadImm =>
    obtain ⟨page, dst, v, hpage, hdst, hi⟩ := exists_operands_loadImm henc hact
    rw [hi]
    rcases Nat.lt_or_ge page m.pages.size with hp | hp
    · exact Or.inl ⟨_, _, execute_loadImm hp hdst pc v _, size_pages_assign ..⟩
    · refine Or.inr ⟨page, dst, ?_, hp, hpage⟩
      have hact : Action.ofMnemonic "regwi" = .loadImm := by decide
      simp [execute, hact, value, Exec.apply_bind, write_of_le hp, Except.map]
  | combineImm =>
    obtain ⟨page, dst, src, op, v, hpage, hdst, hsrc, hop, hi⟩ := exists_operands_combineImm henc hact
    rw [hi]
    rcases Nat.lt_or_ge page m.pages.size with hp | hp
    · obtain ⟨a, ha⟩ := exists_reg? hp hsrc
      obtain ⟨r, hr⟩ := Operator.exists_eval? hop a (immediate v)
      exact Or.inl ⟨_, _, execute_combineImm hact hp hdst ha hr pc _, size_pages_assign ..⟩
    · refine Or.inr ⟨page, src, ?_, hp, hpage⟩
      simp [execute, hact, value, Exec.apply_bind, read_of_le hp]
  | combineReg =>
    obtain ⟨page, dst, src, src', op, hpage, hdst, hsrc, hsrc', hop, hi⟩ := exists_operands_combineReg henc hact
    rw [hi]
    rcases Nat.lt_or_ge page m.pages.size with hp | hp
    · obtain ⟨a, ha⟩ := exists_reg? hp hsrc
      obtain ⟨b, hb⟩ := exists_reg? hp hsrc'
      obtain ⟨r, hr⟩ := Operator.exists_eval? hop a b
      exact Or.inl ⟨_, _, execute_combineReg hact hp hdst ha hb hr pc _, size_pages_assign ..⟩
    · refine Or.inr ⟨page, src, ?_, hp, hpage⟩
      simp [execute, hact, value, Exec.apply_bind, read_of_le hp]
  | jumpIf =>
    obtain ⟨page, src, src', a, op, hsrc, hsrc', hpage, ha, hop, hi⟩ := exists_operands_jumpIf henc hact
    rw [hi]
    rcases Nat.lt_or_ge page m.pages.size with hp | hp
    · obtain ⟨x, hx⟩ := exists_reg? hp hsrc
      obtain ⟨y, hy⟩ := exists_reg? hp hsrc'
      obtain ⟨taken, htaken⟩ := Operator.exists_holds? hop x y
      exact Or.inl ⟨_, m, execute_jumpIf (by omega) hx hy htaken pc _, rfl⟩
    · refine Or.inr ⟨page, src, ?_, hp, hpage⟩
      have hact : Action.ofMnemonic "condj" = .jumpIf := by decide
      simp [execute, hact, value, Exec.apply_bind, read_of_le hp]
  | jumpNonzero =>
    obtain ⟨a, ha, hi⟩ := exists_operands_jumpNonzero henc hact
    rw [hi]
    exact Or.inl ⟨_, m, execute_jumpNonzero (by omega) pc, rfl⟩
  | countDown =>
    obtain ⟨page, dst, a, hpage, hdst, ha, hi⟩ := exists_operands_countDown henc hact
    rw [hi]
    rcases Nat.lt_or_ge page m.pages.size with hp | hp
    · -- the target is looked up after the register is written, but it is never missing
      obtain ⟨x, hx⟩ := exists_reg? hp hdst
      exact Or.inl ⟨_, _, execute_countDown (by omega) hp hdst hx pc _, size_pages_assign ..⟩
    · refine Or.inr ⟨page, dst, ?_, hp, hpage⟩
      have hact : Action.ofMnemonic "loopnz" = .countDown := by decide
      simp [execute, hact, value, Exec.apply_bind, read_of_le hp]
  | halt => exact Or.inl ⟨pc, { m with halted := true }, by simp [execute, hact, Except.map], rfl⟩
  | pass => exact Or.inl ⟨_, m, execute_pass hact pc, rfl⟩

end Faults

/-! ### Faults of a step -/

/-- What a step comes to: there is no word, or none that decodes, or it names a page that is
not there, and the machine is as it was; or it is done. -/
theorem step_cases (words : List Word) (m : Machine) :
    (words.length ≤ m.pc ∧ (step (Code.ofWords words)).apply m = (.error (.outOfBounds m.pc), m)) ∨
      (∃ w e, words[m.pc]? = some w ∧ decode w = .error e ∧
        (step (Code.ofWords words)).apply m = (.error (.invalid m.pc e), m)) ∨
      (∃ page reg : ℕ, m.pages.size ≤ page ∧ page < 8 ∧
        (step (Code.ofWords words)).apply m = (.error (.badRegister page reg), m)) ∨
      ∃ m', (step (Code.ofWords words)).apply m = (.ok (), m') ∧ m'.pages.size = m.pages.size := by
  cases hw : words[m.pc]? with
  | none =>
    refine Or.inl ⟨List.getElem?_eq_none_iff.mp hw, ?_⟩
    simp [step, Exec.apply_bind, Code.getElem?_ofWords, hw]
  | some w =>
    cases hi : decode w with
    | error e =>
      refine Or.inr (Or.inl ⟨w, e, rfl, hi, ?_⟩)
      simp [step, Exec.apply_bind, Code.getElem?_ofWords, hw, hi]
    | ok i =>
      rcases execute_cases (encode_of_decode hi) m.pc m with ⟨next, m', hexec, hsize⟩ | ⟨page, reg, hexec, hle, hlt⟩
      · refine Or.inr (Or.inr (Or.inr ⟨m'.goto next, ?_, hsize⟩))
        simp [step, Exec.apply_bind, Code.getElem?_ofWords, hw, hi, hexec, goto]
      · refine Or.inr (Or.inr (Or.inl ⟨page, reg, hle, hlt, ?_⟩))
        simp [step, Exec.apply_bind, Code.getElem?_ofWords, hw, hi, hexec]

section Outcome

variable {words : List Word} {m m' : Machine}

theorem size_pages_step (h : (step (Code.ofWords words)).apply m = (.ok (), m')) : m'.pages.size = m.pages.size := by
  rcases step_cases words m with ⟨-, hstep⟩ | ⟨w, e, -, -, hstep⟩ | ⟨page, reg, -, -, hstep⟩ | ⟨m₁, hstep, hsize⟩
  all_goals
    rw [hstep] at h
    cases h
  exact hsize

/-- A trap leaves the machine as it was, and it is one of three. -/
theorem trap_cases {t : Trap} (h : (step (Code.ofWords words)).apply m = (.error t, m')) :
    m' = m ∧ ((words.length ≤ m.pc ∧ t = .outOfBounds m.pc) ∨
      (∃ w e, words[m.pc]? = some w ∧ decode w = .error e ∧ t = .invalid m.pc e) ∨
      ∃ page reg : ℕ, m.pages.size ≤ page ∧ page < 8 ∧ t = .badRegister page reg) := by
  rcases step_cases words m with ⟨hend, hstep⟩ | ⟨w, e, hw, he, hstep⟩ | ⟨page, reg, hle, hlt, hstep⟩ | ⟨m₁, hstep, -⟩
  all_goals
    rw [hstep] at h
    cases h
  · exact ⟨rfl, Or.inl ⟨hend, rfl⟩⟩
  · exact ⟨rfl, Or.inr (Or.inl ⟨w, e, hw, he, rfl⟩)⟩
  · exact ⟨rfl, Or.inr (Or.inr ⟨page, reg, hle, hlt, rfl⟩)⟩

end Outcome

end Machine

/-- At every address of an assembled program there is a word that decodes. -/
theorem exists_decode_of_assemble {lines : List Line} {labels : LabelTable} {words : List Word}
    (h : assemble lines labels = .ok words) {a : ℕ} {w : Word} (hw : words[a]? = some w) : ∃ i, decode w = .ok i := by
  obtain ⟨pre, l, post, rfl, hplace⟩ := mem_assemble h hw
  obtain ⟨w', henc, hget, -⟩ := getElem?_assemble h
  rcases hplace with rfl | ⟨-, -, rfl⟩
  · rw [hget] at hw
    obtain rfl := Option.some.inj hw
    exact ⟨_, decode_of_encode henc⟩
  · have hnop : encode nop = .ok 0 := rfl
    exact ⟨_, decode_of_encode hnop⟩

/-- **Traps are bounded**: on any words, a step that traps leaves the machine as it was; no
operand is ever of the wrong kind, and a register is missing only if its page is. An
assembled program on a machine of eight pages or more, from whatever state, traps only
where its words end, or when its steps run out. -/
theorem traps_are_bounded :
    (∀ (words : List Word) (m m' : Machine) (t : Trap), (step (Code.ofWords words)).apply m = (.error t, m') →
      m' = m ∧ (∀ pc mnemonic k, t ≠ .operand pc mnemonic k) ∧
      ∀ page reg, t = .badRegister page reg → (m.pages.size : ℤ) ≤ page) ∧
    ∀ (lines : List Line) (labels : LabelTable) (words : List Word), assemble lines labels = .ok words →
      ∀ (m m' : Machine) (limit : ℕ) (t : Trap), 8 ≤ m.pages.size → run (Code.ofWords words) limit m = (.error t, m') →
        t = .stepLimit limit ∨ t = .outOfBounds m'.pc ∧ words.length ≤ m'.pc := by
  constructor
  · intro words m m' t h
    obtain ⟨hm, hcases⟩ := trap_cases h
    refine ⟨hm, ?_⟩
    rcases hcases with ⟨-, rfl⟩ | ⟨w, e, -, -, rfl⟩ | ⟨page, reg, hle, -, rfl⟩
    · simp
    · simp
    · simpa using hle
  · intro lines labels words hwords m m' limit t hm h
    cases run_eq_iff.mp h with
    | cutOff => exact Or.inl rfl
    | trapped _ hmoves _ hstep =>
      -- the machine has its pages until the step that traps
      have hpages := hmoves.preserves (P := fun m => 8 ≤ m.pages.size)
        (fun m m' hm hstep => (size_pages_step hstep).symm ▸ hm) hm
      obtain ⟨rfl, hcases⟩ := trap_cases hstep
      rcases hcases with ⟨hend, rfl⟩ | ⟨w, e, hw, he, -⟩ | ⟨page, reg, hle, hlt, -⟩
      · exact Or.inr ⟨rfl, hend⟩
      · obtain ⟨i, hi⟩ := exists_decode_of_assemble hwords hw
        rw [hi] at he
        cases he
      · omega

/-- A count down on page 5 that jumps into the second slot of a wait, at the end of the code. -/
def lastJump : List Line :=
  [⟨⟨"loopnz", [.value 5, .value 1, .label "OUT"], false⟩, 0, 0, none⟩,
    ⟨⟨"waiti", [.value 0, .value 9], false⟩, 1, 1, none⟩]

/-- Its words. -/
def lastJumpWords : List Word := [0x30A2021000000002, 0x1500000000000009, 0]

/-- A machine of four pages lacks the register and is left as it is; one of eight pages runs
off the end. -/
theorem traps_are_bounded_last_jump :
    assemble lastJump [("OUT", 2)] = .ok lastJumpWords ∧
      (∃ m', (step (Code.ofWords lastJumpWords)).apply (Machine.start 4) = (.error (.badRegister 5 1), m') ∧
        m' = Machine.start 4 ∧ ((Machine.start 4).pages.size : ℤ) ≤ 5) ∧
      ∃ m', run (Code.ofWords lastJumpWords) 10 (Machine.start 8) = (.error (.outOfBounds 3), m') ∧
        (Trap.outOfBounds 3 = .stepLimit 10 ∨ Trap.outOfBounds 3 = .outOfBounds m'.pc ∧ lastJumpWords.length ≤ m'.pc) := by
  have hwords : assemble lastJump [("OUT", 2)] = .ok lastJumpWords := by decide +kernel
  have hstep : ((step (Code.ofWords lastJumpWords)).apply (Machine.start 4)).1 = .error (.badRegister 5 1) := by
    decide +kernel
  have hrun : (run (Code.ofWords lastJumpWords) 10 (Machine.start 8)).1 = .error (.outOfBounds 3) := by
    decide +kernel
  obtain ⟨hm, -, hpage⟩ := traps_are_bounded.1 lastJumpWords (Machine.start 4) _ _ (Prod.ext hstep rfl)
  have hend := traps_are_bounded.2 _ _ _ hwords (Machine.start 8) _ 10 _ (by decide) (Prod.ext hrun rfl)
  exact ⟨hwords, ⟨_, Prod.ext hstep rfl, hm, hpage 5 1 rfl⟩, _, Prod.ext hrun rfl, hend⟩

end PulseAsm
