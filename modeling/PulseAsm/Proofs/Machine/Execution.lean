import PulseAsm.Machine
import PulseAsm.Proofs.Instr.RoundTrip

/-!
# Execution

What the machine does with one instruction, as a function of the registers and
flags: `Exec.apply` runs a computation of the machine, and the `execute_…`
lemmas say what each action does to the machine and where it goes next.

The machine sees no difference between an instruction and what its word decodes
to (`execute_folded`), so a step at an address is the step of the instruction
that was encoded there (`Code.Holds`, `step_of_holds`).

`Moves` strings the steps of a run together, and `Ends` says which of them have been made
when the program halts, when a step traps and when the limit is reached; a run is known by
this (`run_eq_iff`). `Steps` are those that lead on to further steps.
-/

namespace PulseAsm.Machine

/-- The outcome of execution on a machine. -/
def Exec.apply {α : Type} (x : Exec α) (m : Machine) : Except Trap α × Machine := StateT.run (ExceptT.run x) m

namespace Exec

variable {α β : Type} (m : Machine)

@[simp] theorem apply_pure (a : α) : (pure a : Exec α).apply m = (.ok a, m) := rfl

@[simp] theorem apply_throw (t : Trap) : (throw t : Exec α).apply m = (.error t, m) := rfl

@[simp] theorem apply_get : (get : Exec Machine).apply m = (.ok m, m) := rfl

@[simp] theorem apply_modify (f : Machine → Machine) : (modify f : Exec Unit).apply m = (.ok (), f m) := rfl

@[simp] theorem apply_lift (x : Except Trap α) : (liftM x : Exec α).apply m = (x, m) := by
  cases x <;> rfl

/-- The second part starts from the machine that the first leaves, unless the
first traps. -/
theorem apply_bind (x : Exec α) (f : α → Exec β) :
    (x >>= f).apply m =
      match x.apply m with
      | (.ok a, m') => (f a).apply m'
      | (.error t, m') => (.error t, m') := by
  unfold Exec.apply
  rw [ExceptT.run_bind, StateT.run_bind]
  rcases StateT.run (ExceptT.run x) m with ⟨_ | a, m'⟩ <;> rfl

@[simp] theorem apply_map (f : α → β) (x : Exec α) :
    (f <$> x).apply m = ((x.apply m).1.map f, (x.apply m).2) := by
  have h : f <$> x = x >>= fun a => pure (f a) := rfl
  rw [h, apply_bind]
  rcases x.apply m with ⟨_ | a, m'⟩ <;> rfl

end Exec

/-! ### Registers -/

/-- The machine with its program counter elsewhere. -/
def goto (m : Machine) (a : ℕ) : Machine := { m with pc := a }

/-- The machine with a result in a register, and in the flags if they are updated. -/
def assign (m : Machine) (page reg : ℕ) (v : UInt32) (updateFlags : Bool) : Machine :=
  let m := m.setReg page reg v
  if updateFlags then { m with flags := ⟨v == 0, v.toInt32 < 0⟩ } else m

section Registers

variable {m : Machine} {page reg : ℕ}

@[simp] theorem reg?_goto (m : Machine) (a : ℕ) : (m.goto a).reg? = m.reg? := rfl

@[simp] theorem assign_goto (m : Machine) (a page reg : ℕ) (v : UInt32) (u : Bool) :
    (m.goto a).assign page reg v u = (m.assign page reg v u).goto a := by
  cases u <;> rfl

@[simp] theorem assign_false (m : Machine) (page reg : ℕ) (v : UInt32) :
    m.assign page reg v false = m.setReg page reg v := rfl

@[simp] theorem halted_assign (m : Machine) (page reg : ℕ) (v : UInt32) (u : Bool) :
    (m.assign page reg v u).halted = m.halted := by
  cases u <;> rfl

@[simp] theorem size_pages_setReg (m : Machine) (page reg : ℕ) (v : UInt32) :
    (m.setReg page reg v).pages.size = m.pages.size := Array.size_modify

@[simp] theorem size_pages_assign (m : Machine) (page reg : ℕ) (v : UInt32) (u : Bool) :
    (m.assign page reg v u).pages.size = m.pages.size := by
  cases u <;> exact size_pages_setReg ..

theorem exists_reg? (hp : page < m.pages.size) (hr : reg < 32) : ∃ v, m.reg? page reg = some v := by
  unfold reg?
  simp [hp, hr]

/-- A register holds what was written to it, and the others are as they were. -/
theorem reg?_setReg (m : Machine) (page reg : ℕ) (v : UInt32) (page' reg' : ℕ) :
    (m.setReg page reg v).reg? page' reg' =
      if page' = page ∧ reg' = reg then (m.reg? page reg).map fun _ => v else m.reg? page' reg' := by
  unfold reg? setReg
  simp only [Array.getElem?_modify]
  by_cases hp : page = page'
  · subst hp
    cases m.pages[page]? with
    | none => simp
    | some p =>
      by_cases hr : reg' = reg
      · subst hr
        by_cases hlt : reg' < 32 <;> simp [hlt]
      · simp [hr, Ne.symm hr]
  · simp [hp, Ne.symm hp]

theorem reg?_assign_ne {page' reg' : ℕ} (h : (page', reg') ≠ (page, reg)) (v : UInt32) (u : Bool) :
    (m.assign page reg v u).reg? page' reg' = m.reg? page' reg' := by
  have hset : (m.setReg page reg v).reg? page' reg' = m.reg? page' reg' := by
    rw [reg?_setReg, if_neg]
    rintro ⟨rfl, rfl⟩
    exact h rfl
  cases u <;> exact hset

theorem reg?_assign_self (hp : page < m.pages.size) (hr : reg < 32) (v : UInt32) (u : Bool) :
    (m.assign page reg v u).reg? page reg = some v := by
  have hset : (m.setReg page reg v).reg? page reg = some v := by
    obtain ⟨x, hx⟩ := exists_reg? hp hr
    rw [reg?_setReg, if_pos ⟨rfl, rfl⟩, hx]
    rfl
  cases u <;> exact hset

@[simp] theorem setReg_setReg (m : Machine) (page reg : ℕ) (v v' : UInt32) :
    (m.setReg page reg v).setReg page reg v' = m.setReg page reg v' := by
  unfold setReg
  congr 1
  apply Array.ext_getElem?
  intro k
  simp only [Array.getElem?_modify]
  by_cases hk : page = k
  · simp [hk, Function.comp_def]
  · simp [hk]

/-! ### Instructions -/

theorem read_apply {v : UInt32} (h : m.reg? page reg = some v) : (read page reg).apply m = (.ok v, m) := by
  simp [read, Exec.apply_bind, regAt?, h]

theorem write_apply (hp : page < m.pages.size) (hr : reg < 32) (v : UInt32) (u : Bool) :
    (write page reg v u).apply m = (.ok (), m.assign page reg v u) := by
  obtain ⟨x, hx⟩ := exists_reg? hp hr
  simp [write, Exec.apply_bind, read_apply hx, assign]

end Registers

section Execute

variable {m : Machine} {page dst src : ℕ}

theorem execute_loadImm (hp : page < m.pages.size) (hd : dst < 32) (pc : ℕ) (v : ℤ) (u : Bool) :
    (execute pc ⟨"regwi", [.value page, .value dst, .value v], u⟩).apply m =
      (.ok (pc + 1), m.assign page dst (immediate v) u) := by
  have hact : Action.ofMnemonic "regwi" = .loadImm := by decide
  simp [execute, hact, value, Exec.apply_bind, write_apply hp hd, Except.map]

theorem execute_combineImm {mnemonic : String} {op : Operator} {v : ℤ} {a r : UInt32}
    (hact : Action.ofMnemonic mnemonic = .combineImm) (hp : page < m.pages.size) (hd : dst < 32)
    (ha : m.reg? page src = some a) (hr : op.eval? a (immediate v) = some r) (pc : ℕ) (u : Bool) :
    (execute pc ⟨mnemonic, [.value page, .value dst, .value src, .op op, .value v], u⟩).apply m =
      (.ok (pc + 1), m.assign page dst r u) := by
  simp [execute, hact, value, operator, defined, hr, Exec.apply_bind, read_apply ha, write_apply hp hd, Except.map]

theorem execute_combineReg {mnemonic : String} {op : Operator} {src' : ℕ} {a b r : UInt32}
    (hact : Action.ofMnemonic mnemonic = .combineReg) (hp : page < m.pages.size) (hd : dst < 32)
    (ha : m.reg? page src = some a) (hb : m.reg? page src' = some b) (hr : op.eval? a b = some r)
    (pc : ℕ) (u : Bool) :
    (execute pc ⟨mnemonic, [.value page, .value dst, .value src, .op op, .value src'], u⟩).apply m =
      (.ok (pc + 1), m.assign page dst r u) := by
  simp [execute, hact, value, operator, defined, hr, Exec.apply_bind, read_apply ha, read_apply hb,
    write_apply hp hd, Except.map]

theorem execute_pass {i : Instr} (h : Action.ofMnemonic i.mnemonic = .pass) (pc : ℕ) :
    (execute pc i).apply m = (.ok (pc + 1), m) := by
  simp [execute, h]

theorem target_eq_ok (pc : ℕ) {i : Instr} {k a : ℕ} (hk : i.operands[k]? = some (.value a)) (ha : a < 2 ^ 32) :
    target pc i k = .ok a := by
  have hrange : (0 : ℤ) ≤ a ∧ (a : ℤ) < 0x100000000 := by omega
  refine bind_eq_ok_iff.mpr ⟨a, by rw [value, hk], ?_⟩
  rw [if_pos hrange]
  rfl

theorem execute_jumpIf {op : Operator} {src' a : ℕ} {x y : UInt32} {taken : Bool} (ha : a < 2 ^ 32)
    (hx : m.reg? page src = some x) (hy : m.reg? page src' = some y) (htaken : op.holds? x y = some taken)
    (pc : ℕ) (u : Bool) :
    (execute pc ⟨"condj", [.value page, .value src, .op op, .value src', .value a], u⟩).apply m =
      (.ok (if taken then a else pc + 1), m) := by
  have hact : Action.ofMnemonic "condj" = .jumpIf := by decide
  have htarget : target pc ⟨"condj", [.value page, .value src, .op op, .value src', .value a], u⟩ 4 = .ok a :=
    target_eq_ok pc rfl ha
  cases taken <;>
    simp [execute, hact, value, operator, defined, Exec.apply_bind, read_apply hx, read_apply hy, htaken, htarget]

theorem execute_jumpNonzero {a : ℕ} {u : Bool} (ha : a < 2 ^ 32) (pc : ℕ) :
    (execute pc ⟨"jnz", [.value a], u⟩).apply m = (.ok (if m.flags.zero then pc + 1 else a), m) := by
  have hact : Action.ofMnemonic "jnz" = .jumpNonzero := by decide
  have htarget : target pc ⟨"jnz", [.value a], u⟩ 0 = .ok a := target_eq_ok pc rfl ha
  cases hz : m.flags.zero <;> simp [execute, hact, Exec.apply_bind, hz, htarget]

theorem execute_countDown {a : ℕ} {x : UInt32} (ha : a < 2 ^ 32) (hp : page < m.pages.size) (hd : dst < 32)
    (hx : m.reg? page dst = some x) (pc : ℕ) (u : Bool) :
    (execute pc ⟨"loopnz", [.value page, .value dst, .value a], u⟩).apply m =
      (.ok (if x - 1 = 0 then pc + 1 else a), m.assign page dst (x - 1) false) := by
  have hact : Action.ofMnemonic "loopnz" = .countDown := by decide
  have htarget : target pc ⟨"loopnz", [.value page, .value dst, .value a], u⟩ 2 = .ok a := target_eq_ok pc rfl ha
  by_cases hz : x - 1 = 0 <;>
    simp [execute, hact, value, Exec.apply_bind, read_apply hx, write_apply hp hd, hz, htarget, Except.map]

theorem execute_halt (pc : ℕ) :
    (execute pc ⟨"end", [], false⟩).apply m = (.ok pc, { m with halted := true }) := by
  have hact : Action.ofMnemonic "end" = .halt := by decide
  simp [execute, hact, Except.map]

end Execute

/-! ### Words and what they decode to -/

/-- The machine reads the low 31 bits of an immediate, so folding it makes no
difference. -/
theorem immediate_foldedImm (v : ℤ) : immediate (foldedImm v) = immediate v := by
  have hmod : foldedImm v % 2 ^ 31 = v % 2 ^ 31 := by
    unfold foldedImm
    split <;> omega
  simp only [immediate, signExtend31_eq, hmod]

theorem value_eq_ok {pc k : ℕ} {i : Instr} {v : ℤ} (h : value pc i k = .ok v) :
    i.operands[k]? = some (.value v) := by
  unfold value at h
  split at h
  · rename_i v' hop
    cases h
    exact hop
  · cases h

theorem value_folded (pc : ℕ) (i : Instr) (k : ℕ) :
    value pc i.folded k = (value pc i k).map fun v => if i.isImm k then foldedImm v else v := by
  simp only [value, Instr.folded, List.getElem?_mapIdx]
  cases i.operands[k]? with
  | none => rfl
  | some o => cases o <;> cases i.isImm k <;> rfl

theorem operator_folded (pc : ℕ) (i : Instr) (k : ℕ) : operator pc i.folded k = operator pc i k := by
  simp only [operator, Instr.folded, List.getElem?_mapIdx]
  cases i.operands[k]? with
  | none => rfl
  | some o => cases o <;> cases i.isImm k <;> rfl

/-- The mnemonics of the instructions that do something to registers or control flow. -/
theorem mem_of_action_ne_pass {mnemonic : String} (h : Action.ofMnemonic mnemonic ≠ .pass) :
    mnemonic ∈ ["regwi", "mathi", "bitwi", "math", "bitw", "condj", "jnz", "loopnz", "end"] := by
  by_contra hmem
  simp only [List.mem_cons, List.not_mem_nil, or_false, not_or] at hmem
  simp [Action.ofMnemonic, hmem] at h

/-- Whether the machine reads an operand as an immediate. -/
def Action.readsImm : Action → ℕ → Bool
  | .loadImm, k => k == 2
  | .combineImm, k => k == 4
  | _, _ => false

/-- The operands that the machine reads as immediates are those in immediate fields. -/
theorem isImm_of_action {i : Instr} (h : Action.ofMnemonic i.mnemonic ≠ .pass) {k : ℕ} (hk : k < 5) :
    i.isImm k = Action.readsImm (Action.ofMnemonic i.mnemonic) k := by
  have htable : ∀ mnemonic ∈ ["regwi", "mathi", "bitwi", "math", "bitw", "condj", "jnz", "loopnz", "end"],
      ∀ k < 5, Instr.isImm ⟨mnemonic, [], false⟩ k = Action.readsImm (Action.ofMnemonic mnemonic) k := by decide
  exact htable _ (mem_of_action_ne_pass h) k hk

/-- Executing what the word of an instruction decodes to is executing the
instruction. -/
theorem execute_folded (pc : ℕ) (i : Instr) : execute pc i.folded = execute pc i := by
  have hmap : ∀ (x : Except Trap ℤ) (f : ℤ → ℤ) (g : ℤ → Exec ℕ),
      ((liftM (x.map f) : Exec ℤ) >>= g) = (liftM x : Exec ℤ) >>= fun v => g (f v) := by
    intro x f g
    cases x <;> rfl
  have himm : ∀ k, Action.ofMnemonic i.mnemonic ≠ .pass → k < 5 →
      Action.readsImm (Action.ofMnemonic i.mnemonic) k = true →
      value pc i.folded k = (value pc i k).map foldedImm := by
    intro k h hk hread
    rw [value_folded, isImm_of_action h hk, hread]
    rfl
  have hvalue : ∀ k, Action.ofMnemonic i.mnemonic ≠ .pass → k < 5 →
      Action.readsImm (Action.ofMnemonic i.mnemonic) k = false → value pc i.folded k = value pc i k := by
    intro k h hk hread
    rw [value_folded, isImm_of_action h hk, hread]
    cases value pc i k <;> rfl
  have htarget : ∀ k, Action.ofMnemonic i.mnemonic ≠ .pass → k < 5 →
      Action.readsImm (Action.ofMnemonic i.mnemonic) k = false → target pc i.folded k = target pc i k := by
    intro k h hk hread
    unfold target
    rw [hvalue k h hk hread]
    rfl
  have hdefined : ∀ {α : Type} k (x : Option α), defined pc i.folded k x = defined pc i k x := fun _ _ => rfl
  have hmnemonic : i.folded.mnemonic = i.mnemonic := rfl
  have hflags : i.folded.updateFlags = i.updateFlags := rfl
  unfold execute
  rw [hmnemonic, hflags]
  generalize Action.ofMnemonic i.mnemonic = action at himm hvalue htarget ⊢
  cases action with
  | loadImm => simp (disch := decide) only [hvalue, himm, hmap, immediate_foldedImm]
  | combineImm =>
    simp (disch := decide) only [hvalue, himm, hmap, immediate_foldedImm, operator_folded, hdefined]
  | combineReg => simp (disch := decide) only [hvalue, operator_folded, hdefined]
  | jumpIf => simp (disch := decide) only [hvalue, htarget, operator_folded, hdefined]
  | jumpNonzero => simp (disch := decide) only [htarget]
  | countDown => simp (disch := decide) only [hvalue, htarget]
  | halt => rfl
  | pass => rfl

/-! ### Steps -/

/-- The word at an address is that of an instruction. -/
def Code.Holds (code : Code) (a : ℕ) (i : Instr) : Prop := ∃ w, encode i = .ok w ∧ code[a]? = some (decode w)

theorem Code.getElem?_ofWords (words : List Word) (a : ℕ) : (Code.ofWords words)[a]? = words[a]?.map decode := by
  simp [Code.ofWords]

/-- A step at an address executes the instruction whose word is there. -/
theorem step_of_holds {code : Code} {m m' : Machine} {i : Instr} {next : ℕ} (h : code.Holds m.pc i)
    (he : (execute m.pc i).apply m = (.ok next, m')) : (step code).apply m = (.ok (), m'.goto next) := by
  obtain ⟨w, henc, hget⟩ := h
  rw [decode_of_encode henc] at hget
  simp only [step, Exec.apply_bind, Exec.apply_get, hget, execute_folded, he, Exec.apply_modify]
  rfl

/-! ### The steps of a run -/

/-- So many steps lead from one machine to another, each of them made by a machine that
has not halted. The last one may halt. -/
inductive Moves (code : Code) : ℕ → Machine → Machine → Prop where
  | refl (m : Machine) : Moves code 0 m m
  | head {k : ℕ} {m m₁ m₂ : Machine} (hm : m.halted = false) (h : (step code).apply m = (.ok (), m₁))
      (hs : Moves code k m₁ m₂) : Moves code (k + 1) m m₂

namespace Moves

variable {code : Code} {j k : ℕ} {m m₁ m₂ : Machine}

theorem trans (h₁ : Moves code j m m₁) (h₂ : Moves code k m₁ m₂) : Moves code (j + k) m m₂ := by
  induction h₁ with
  | refl => rwa [Nat.zero_add]
  | @head j m m₁ _ hm h _ ih =>
    rw [Nat.succ_add]
    exact .head hm h (ih h₂)

theorem concat (h : Moves code k m m₁) (hm₁ : m₁.halted = false) (hstep : (step code).apply m₁ = (.ok (), m₂)) :
    Moves code (k + 1) m m₂ := h.trans (.head hm₁ hstep (.refl m₂))

/-- Before each of the steps there is a machine that has not halted. -/
theorem exists_of_lt (h : Moves code k m m₁) (hj : j < k) : ∃ m', Moves code j m m' ∧ m'.halted = false := by
  induction h generalizing j with
  | refl => exact absurd hj (Nat.not_lt_zero j)
  | @head k m m₁ m₂ hm h _ ih =>
    cases j with
    | zero => exact ⟨m, .refl m, hm⟩
    | succ j =>
      obtain ⟨m', hmoves, hm'⟩ := ih (Nat.lt_of_succ_lt_succ hj)
      exact ⟨m', .head hm h hmoves, hm'⟩

theorem preserves {P : Machine → Prop} (hstep : ∀ m m', P m → (step code).apply m = (.ok (), m') → P m')
    (h : Moves code k m m₁) (hm : P m) : P m₁ := by
  induction h with
  | refl => exact hm
  | @head k m m₁ m₂ _ h _ ih => exact ih (hstep m m₁ hm h)

/-- A run makes these steps first. -/
theorem runFrom_eq (h : Moves code k m m₁) (limit left : ℕ) :
    runFrom code limit (k + left) m = runFrom code limit left m₁ := by
  induction h with
  | refl => rw [Nat.zero_add]
  | @head k m m₁ m₂ hm h _ ih =>
    have hstep : (step code).run m = (.ok (), m₁) := h
    rw [Nat.succ_add, runFrom, hm, hstep]
    exact ih

end Moves

/-! ### How a run ends -/

/-- The result of a run of at most `limit` steps, and the machine in the end. -/
inductive Ends (code : Code) (limit : ℕ) (m : Machine) : Except Trap ℕ → Machine → Prop where
  /-- The program halts, with its last step at the latest. -/
  | halted {k : ℕ} {m' : Machine} (hk : k ≤ limit) (h : Moves code k m m') (hm' : m'.halted = true) :
      Ends code limit m (.ok k) m'
  /-- All steps have been made, and the program has not halted. -/
  | cutOff {m' : Machine} (h : Moves code limit m m') (hm' : m'.halted = false) :
      Ends code limit m (.error (.stepLimit limit)) m'
  /-- A step within the limit traps. -/
  | trapped {k : ℕ} {m₁ m' : Machine} {t : Trap} (hk : k < limit) (h : Moves code k m m₁) (hm₁ : m₁.halted = false)
      (hstep : (step code).apply m₁ = (.error t, m')) : Ends code limit m (.error t) m'

section Ends

variable {code : Code} {limit : ℕ} {m m' : Machine} {r : Except Trap ℕ}

/-- The rest of a run, after the steps that have been made. -/
theorem ends_runFrom {made : ℕ} {m₁ : Machine} (left : ℕ) (h : Moves code made m m₁) (hlimit : made + left = limit) :
    Ends code limit m (runFrom code limit left m₁).1 (runFrom code limit left m₁).2 := by
  induction left generalizing made m₁ with
  | zero =>
    obtain rfl : made = limit := hlimit
    rw [runFrom]
    cases hm₁ : m₁.halted with
    | true => exact .halted (Nat.le_refl _) h hm₁
    | false => exact .cutOff h hm₁
  | succ left ih =>
    rw [runFrom]
    cases hm₁ : m₁.halted with
    | true =>
      have hmade : limit - (left + 1) = made := by omega
      simp only [if_true, hmade]
      exact .halted (by omega) h hm₁
    | false =>
      rcases hstep : (step code).run m₁ with ⟨t | _, m₂⟩
      · exact .trapped (by omega) h hm₁ hstep
      · exact ih (h.concat hm₁ hstep) (by omega)

theorem Ends.run_eq (h : Ends code limit m r m') : run code limit m = (r, m') := by
  unfold run
  cases h with
  | @halted k _ hk h hm' =>
    obtain ⟨left, rfl⟩ := Nat.exists_eq_add_of_le hk
    rw [h.runFrom_eq]
    cases left with
    | zero => simp [runFrom, hm']
    | succ left => simp [runFrom, hm']
  | cutOff h hm' =>
    have hall := h.runFrom_eq limit 0
    rw [Nat.add_zero] at hall
    rw [hall]
    simp [runFrom, hm']
  | @trapped k m₁ _ t hk h hm₁ hstep =>
    obtain ⟨left, rfl⟩ : ∃ left, limit = k + (left + 1) := ⟨limit - k - 1, by omega⟩
    have hstep' : (step code).run m₁ = (.error t, m') := hstep
    rw [h.runFrom_eq, runFrom, hm₁, hstep']
    rfl

/-- A run is known by the steps that it makes and the way it ends. -/
theorem run_eq_iff : run code limit m = (r, m') ↔ Ends code limit m r m' := by
  constructor
  · intro h
    have hends : Ends code limit m (runFrom code limit limit m).1 (runFrom code limit limit m).2 :=
      ends_runFrom limit (.refl m) (Nat.zero_add limit)
    rw [run] at h
    rwa [h] at hends
  · exact Ends.run_eq

end Ends

/-! ### Steps that lead on -/

/-- So many steps lead from one machine to another; none traps or halts. -/
inductive Steps (code : Code) : ℕ → Machine → Machine → Prop where
  | refl (m : Machine) : Steps code 0 m m
  | head {k : ℕ} {m m₁ m₂ : Machine} (h : (step code).apply m = (.ok (), m₁)) (hhalted : m₁.halted = m.halted)
      (hs : Steps code k m₁ m₂) : Steps code (k + 1) m m₂

namespace Steps

variable {code : Code} {j k : ℕ} {m m₁ m₂ : Machine}

theorem one (h : (step code).apply m = (.ok (), m₁)) (hhalted : m₁.halted = m.halted) : Steps code 1 m m₁ :=
  .head h hhalted (.refl m₁)

/-- A step at an address, from the instruction whose word is there. -/
theorem of_holds {a next : ℕ} {i : Instr} (h : code.Holds a i)
    (he : (execute a i).apply (m.goto a) = (.ok next, m₁.goto a)) (hhalted : m₁.halted = m.halted) :
    Steps code 1 (m.goto a) (m₁.goto next) := by
  have hstep : (Machine.step code).apply (m.goto a) = (.ok (), (m₁.goto a).goto next) := step_of_holds h he
  exact .one hstep hhalted

theorem trans (h₁ : Steps code j m m₁) (h₂ : Steps code k m₁ m₂) : Steps code (k + j) m m₂ := by
  induction h₁ with
  | refl => exact h₂
  | head h hhalted _ ih => exact .head h hhalted (ih h₂)

theorem halted_eq (h : Steps code k m m₁) : m₁.halted = m.halted := by
  induction h with
  | refl => rfl
  | head _ hhalted _ ih => exact ih.trans hhalted

theorem moves (h : Steps code k m m₁) (hm : m.halted = false) : Moves code k m m₁ := by
  induction h with
  | refl m => exact .refl m
  | head h hhalted _ ih => exact .head hm h (ih (hhalted.trans hm))

/-- A run that is long enough ends where these steps lead to a halt. -/
theorem run_eq (h : Steps code k m m₁) (hm : m.halted = false) (hend : (Machine.step code).apply m₁ = (.ok (), m₂))
    (hhalt : m₂.halted = true) {limit : ℕ} (hlimit : k < limit) : run code limit m = (.ok (k + 1), m₂) :=
  run_eq_iff.mpr (.halted hlimit ((h.moves hm).concat (h.halted_eq.trans hm) hend) hhalt)

end Steps

end PulseAsm.Machine
