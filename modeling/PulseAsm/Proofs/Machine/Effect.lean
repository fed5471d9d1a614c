import PulseAsm.Proofs.Analysis.Reassembly
import PulseAsm.Proofs.Machine.Straight

/-!
# What an instruction can do

Whatever the state of the machine, and whether it traps or not, an instruction leaves the
program counter alone, and every register but its target. It passes control in one of three
ways (`Instr.Passes`), and what it traps for is a fault of its own and not the limit of a
run (`Trap.IsFault`).

`Exec.Affects` says this of any execution. It is put together along the execution, so one
look at all actions of the machine is enough for all of it (`execute_affects`). What a step
can do follows from it (`StepEffect`).
-/

namespace PulseAsm

/-- The addresses to which an instruction at `pc` may pass control. -/
inductive Instr.Passes (i : Instr) (pc : ℕ) : ℕ → Prop where
  | stay : i.Passes pc pc
  | next (h : i.mnemonic ≠ "end") : i.Passes pc (pc + 1)
  | jump {t : ℕ} (h : i.jumpTarget? = some t) : i.Passes pc t

/-- The trap comes from a step, and not from the limit of a run. -/
def Trap.IsFault (t : Trap) : Prop := ∀ n, t ≠ .stepLimit n

namespace Machine

/-! ### Effects of execution -/

/-- What has become of a machine after an execution that may write a target. -/
structure Effect {α : Type} (target : Option (ℕ × ℕ)) (Q : α → Prop) (m : Machine) (res : Except Trap α × Machine) :
    Prop where
  pc : res.2.pc = m.pc
  regs : ∀ page reg, target ≠ some (page, reg) → res.2.reg? page reg = m.reg? page reg
  yields : ∀ a, res.1 = .ok a → Q a
  faults : ∀ t, res.1 = .error t → t.IsFault

/-- The execution leaves the program counter and all registers but its target alone, traps for
faults only, and what it yields has a property. -/
def Exec.Affects {α : Type} (x : Exec α) (target : Option (ℕ × ℕ)) (Q : α → Prop) : Prop :=
  ∀ m, Effect target Q m (x.apply m)

namespace Exec.Affects

variable {α β : Type} {target : Option (ℕ × ℕ)} {P : α → Prop} {Q : β → Prop}

/-- The second part may count on what the first yields. -/
theorem bind {x : Exec α} {f : α → Exec β} (hx : x.Affects target P) (hf : ∀ a, P a → (f a).Affects target Q) :
    (x >>= f).Affects target Q := by
  intro m
  have hfirst := hx m
  rw [Exec.apply_bind]
  rcases hm : x.apply m with ⟨t | a, m'⟩
  · rw [hm] at hfirst
    refine ⟨hfirst.pc, hfirst.regs, fun b hb => ?_, fun t' ht' => ?_⟩
    · cases hb
    · cases ht'
      exact hfirst.faults t rfl
  · rw [hm] at hfirst
    have hsecond := hf a (hfirst.yields a rfl) m'
    exact ⟨hsecond.pc.trans hfirst.pc, fun page reg h => (hsecond.regs page reg h).trans (hfirst.regs page reg h),
      hsecond.yields, hsecond.faults⟩

theorem pure {b : β} (h : Q b) : (Pure.pure b : Exec β).Affects target Q := by
  refine fun m => ⟨rfl, fun _ _ _ => rfl, fun b' hb' => ?_, fun t ht => ?_⟩
  · cases hb'
    exact h
  · cases ht

/-- Looking something up has no effect. -/
theorem lift {x : Except Trap β} (hfault : ∀ t, x = .error t → t.IsFault) (h : ∀ b, x = .ok b → Q b) :
    (liftM x : Exec β).Affects target Q := by
  intro m
  rw [Exec.apply_lift]
  exact ⟨rfl, fun _ _ _ => rfl, h, hfault⟩

theorem get : (MonadState.get : Exec Machine).Affects target fun _ => True :=
  fun _ => ⟨rfl, fun _ _ _ => rfl, fun _ _ => trivial, fun _ ht => by cases ht⟩

theorem modify {f : Machine → Machine} (hpc : ∀ m, (f m).pc = m.pc)
    (hregs : ∀ m page reg, target ≠ some (page, reg) → (f m).reg? page reg = m.reg? page reg) :
    (modify f : Exec Unit).Affects target fun _ => True :=
  fun m => ⟨hpc m, hregs m, fun _ _ => trivial, fun _ ht => by cases ht⟩

end Exec.Affects

theorem read_affects (target : Option (ℕ × ℕ)) (page reg : ℤ) : (read page reg).Affects target fun _ => True := by
  refine .bind .get fun m _ => ?_
  cases m.regAt? page reg with
  | none => exact .lift (x := .error _) (fun t ht => by cases ht; simp [Trap.IsFault]) fun _ _ => trivial
  | some v => exact .pure trivial

theorem write_affects (page reg : ℤ) (v : UInt32) (u : Bool) :
    (write page reg v u).Affects (some (page.toNat, reg.toNat)) fun _ => True := by
  refine .bind (read_affects _ page reg) fun _ _ => .modify (fun m => ?_) fun m page' reg' h => ?_
  · cases u <;> rfl
  · exact reg?_assign_ne (fun heq => h (congrArg some heq.symm)) v u

/-! ### Operands -/

section Operands

variable {pc : ℕ} {i : Instr} {k : ℕ} {t : Trap}

theorem isFault_operand (pc : ℕ) (mnemonic : String) (k : ℕ) : (Trap.operand pc mnemonic k).IsFault := by
  simp [Trap.IsFault]

theorem isFault_of_value (h : value pc i k = .error t) : t.IsFault := by
  unfold value at h
  split at h <;> cases h
  exact isFault_operand _ _ _

theorem isFault_of_operator (h : operator pc i k = .error t) : t.IsFault := by
  unfold operator at h
  split at h <;> cases h
  exact isFault_operand _ _ _

theorem isFault_of_defined {α : Type} {x : Option α} (h : defined pc i k x = .error t) : t.IsFault := by
  unfold defined at h
  split at h <;> cases h
  exact isFault_operand _ _ _

theorem isFault_of_target (h : target pc i k = .error t) : t.IsFault := by
  rcases bind_eq_error_iff.mp h with hv | ⟨v, -, h⟩
  · exact isFault_of_value hv
  · split at h <;> cases h
    exact isFault_operand _ _ _

end Operands

/-- The target of an instruction is given by the first two operands. -/
theorem target?_of_value {pc : ℕ} {i : Instr} {page dst : ℤ}
    (hact : Action.ofMnemonic i.mnemonic ∈ [.loadImm, .combineImm, .combineReg, .countDown])
    (hpage : value pc i 0 = .ok page) (hdst : value pc i 1 = .ok dst) :
    i.target? = some (page.toNat, dst.toNat) := by
  obtain ⟨mnemonic, operands, u⟩ := i
  have hpage := value_eq_ok hpage
  have hdst := value_eq_ok hdst
  match operands, hpage, hdst with
  | o :: o' :: rest, hpage, hdst =>
    cases hpage
    cases hdst
    simp only [Instr.target?]
    rw [if_pos hact]

/-- The mnemonics of the actions that may jump. -/
theorem mnemonic_of_jump {mnemonic : String} :
    (Action.ofMnemonic mnemonic = .jumpIf → mnemonic = "condj") ∧
    (Action.ofMnemonic mnemonic = .jumpNonzero → mnemonic = "jnz") ∧
    (Action.ofMnemonic mnemonic = .countDown → mnemonic = "loopnz") := by
  by_cases hpass : Action.ofMnemonic mnemonic = .pass
  · simp [hpass]
  · have htable : ∀ mnemonic ∈ ["regwi", "mathi", "bitwi", "math", "bitw", "condj", "jnz", "loopnz", "end"],
        (Action.ofMnemonic mnemonic = .jumpIf → mnemonic = "condj") ∧
        (Action.ofMnemonic mnemonic = .jumpNonzero → mnemonic = "jnz") ∧
        (Action.ofMnemonic mnemonic = .countDown → mnemonic = "loopnz") := by decide
    exact htable _ (mem_of_action_ne_pass hpass)

/-- The machine takes the target of a jump from the operand in the address field. -/
theorem jumpTarget?_of_target {i : Instr} {d : Descriptor} {f : Field} {pc t : ℕ}
    (hd : Descriptor.ofMnemonic? i.mnemonic = some d) (hf : d.fields.find? (·.kind = .addr) = some f)
    (h : target pc i f.operand = .ok t) : i.jumpTarget? = some t := by
  obtain ⟨v, hv, h⟩ := bind_eq_ok_iff.mp h
  have hop := value_eq_ok hv
  by_cases hrange : 0 ≤ v ∧ v < 0x100000000
  · rw [if_pos hrange] at h
    cases h
    have hnat : (v.toNat : ℤ) = v := Int.toNat_of_nonneg hrange.1
    exact Instr.jumpTarget?_eq_some hd hf (hnat.symm ▸ hop) (hnat.symm ▸ hrange.2)
  · rw [if_neg hrange] at h
    cases h

/-- Whatever an instruction does, it writes to no register but its target, and it passes control
in one of its ways or traps for a fault. -/
theorem execute_affects (pc : ℕ) (i : Instr) : (execute pc i).Affects i.target? (i.Passes pc) := by
  have hvalue : ∀ k, (liftM (value pc i k) : Exec ℤ).Affects i.target? (value pc i k = .ok ·) :=
    fun _ => .lift (fun _ => isFault_of_value) fun _ => id
  have hoperator : ∀ k, (liftM (operator pc i k) : Exec Operator).Affects i.target? fun _ => True :=
    fun _ => .lift (fun _ => isFault_of_operator) fun _ _ => trivial
  have hdefined : ∀ {α : Type} k (x : Option α), (liftM (defined pc i k x) : Exec α).Affects i.target? fun _ => True :=
    fun _ _ => .lift (fun _ => isFault_of_defined) fun _ _ => trivial
  have hread := read_affects i.target?
  -- the page and the register of a write are the first two operands
  have hwrite : Action.ofMnemonic i.mnemonic ∈ [.loadImm, .combineImm, .combineReg, .countDown] →
      ∀ {page dst : ℤ}, value pc i 0 = .ok page → value pc i 1 = .ok dst → ∀ v u,
        (write page dst v u).Affects i.target? fun _ => True := by
    intro hact page dst hpage hdst v u
    rw [target?_of_value hact hpage hdst]
    exact write_affects page dst v u
  -- only a halt is of the mnemonic that does not go on to the next word
  have hnext : Action.ofMnemonic i.mnemonic ≠ .halt → (pure (pc + 1) : Exec ℕ).Affects i.target? (i.Passes pc) := by
    intro hact
    refine .pure (.next fun hend => ?_)
    rw [hend] at hact
    exact hact rfl
  unfold execute
  cases hact : Action.ofMnemonic i.mnemonic with
  | loadImm =>
    refine (hvalue 0).bind fun page hpage => (hvalue 1).bind fun dst hdst => (hvalue 2).bind fun imm _ => ?_
    exact (hwrite (by simp [hact]) hpage hdst _ _).bind fun _ _ => hnext (by simp [hact])
  | combineImm =>
    refine (hvalue 0).bind fun page hpage => (hvalue 2).bind fun src _ => (hread page src).bind fun a _ => ?_
    refine (hoperator 3).bind fun op _ => (hvalue 4).bind fun imm _ => (hdefined 3 _).bind fun r _ => ?_
    refine (hvalue 1).bind fun dst hdst => ?_
    exact (hwrite (by simp [hact]) hpage hdst _ _).bind fun _ _ => hnext (by simp [hact])
  | combineReg =>
    refine (hvalue 0).bind fun page hpage => (hvalue 2).bind fun src _ => (hread page src).bind fun a _ => ?_
    refine (hvalue 4).bind fun src' _ => (hread page src').bind fun b _ => (hoperator 3).bind fun op _ => ?_
    refine (hdefined 3 _).bind fun r _ => (hvalue 1).bind fun dst hdst => ?_
    exact (hwrite (by simp [hact]) hpage hdst _ _).bind fun _ _ => hnext (by simp [hact])
  | jumpIf =>
    have hm := mnemonic_of_jump.1 hact
    refine (hvalue 0).bind fun page _ => (hvalue 1).bind fun src _ => (hread page src).bind fun a _ => ?_
    refine (hvalue 3).bind fun src' _ => (hread page src').bind fun b _ => (hoperator 2).bind fun op _ => ?_
    refine (hdefined 2 _).bind fun taken _ => ?_
    cases taken
    · exact hnext (by simp [hact])
    · exact .lift (fun _ => isFault_of_target) fun t ht => .jump (jumpTarget?_of_target (by rw [hm]; rfl) rfl ht)
  | jumpNonzero =>
    have hm := mnemonic_of_jump.2.1 hact
    refine Exec.Affects.get.bind fun m _ => ?_
    split
    · exact hnext (by simp [hact])
    · exact .lift (fun _ => isFault_of_target) fun t ht => .jump (jumpTarget?_of_target (by rw [hm]; rfl) rfl ht)
  | countDown =>
    have hm := mnemonic_of_jump.2.2 hact
    refine (hvalue 0).bind fun page hpage => (hvalue 1).bind fun dst hdst => (hread page dst).bind fun a _ => ?_
    refine (hwrite (by simp [hact]) hpage hdst _ _).bind fun _ _ => ?_
    split
    · exact hnext (by simp [hact])
    · exact .lift (fun _ => isFault_of_target) fun t ht => .jump (jumpTarget?_of_target (by rw [hm]; rfl) rfl ht)
  | halt => exact .bind (.modify (fun _ => rfl) fun _ _ _ _ => rfl) fun _ _ => .pure .stay
  | pass => exact hnext (by simp [hact])

/-! ### Steps -/

/-- What a step comes to: there is no instruction at the program counter and the machine is as
it was, or the instruction there traps, or it passes control on. -/
inductive StepEffect (code : Code) (m : Machine) : Except Trap Unit × Machine → Prop where
  | missing {t : Trap} (ht : t.IsFault) : StepEffect code m (.error t, m)
  | trapped {i : Instr} {t : Trap} {m' : Machine} (hget : code[m.pc]? = some (.ok i))
      (h : Effect i.target? (i.Passes m.pc) m (.error t, m')) : StepEffect code m (.error t, m')
  | passed {i : Instr} {next : ℕ} {m' : Machine} (hget : code[m.pc]? = some (.ok i))
      (h : Effect i.target? (i.Passes m.pc) m (.ok next, m')) : StepEffect code m (.ok (), m'.goto next)

theorem step_effect (code : Code) (m : Machine) : StepEffect code m ((step code).apply m) := by
  simp only [step, Exec.apply_bind, Exec.apply_get]
  cases hget : code[m.pc]? with
  | none => exact .missing (by simp [Trap.IsFault])
  | some x =>
    cases x with
    | error e => exact .missing (by simp [Trap.IsFault])
    | ok i =>
      have heffect := execute_affects m.pc i m
      simp only [Exec.apply_bind]
      rcases hexec : (execute m.pc i).apply m with ⟨t | next, m'⟩
      · rw [hexec] at heffect
        exact .trapped hget heffect
      · rw [hexec] at heffect
        exact .passed hget heffect

end Machine

end PulseAsm
