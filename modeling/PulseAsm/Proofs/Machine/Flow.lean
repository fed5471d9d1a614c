import PulseAsm.Proofs.Program.Load
import Mathlib.Logic.Function.Iterate

/-!
# Structured programs

A structured program is instructions in a row and counted loops (`Flow`), and
`Flow.exec` says what it does: a loop loads its counter and then repeats its body,
counting down with the flags updated after each round.

`Flow.At` says how a structured program stands in the code of the machine: a loop
is the load of its counter, the body, the count down, and a branch back to the
body. If the counters are left alone by what they count (`Flow.Disciplined`), the
machine runs through the code as `Flow.exec` says (`Flow.At.steps`), and every
counter ends at zero (`Flow.At.counter_eq_zero`).
-/

namespace PulseAsm

open Machine

/-- A structured program. -/
inductive Flow where
  /-- Nothing more. -/
  | done
  /-- Instructions in a row, and what follows. -/
  | run (is : List Instr) (next : Flow)
  /-- A loop of a number of rounds with its counter and its body, and what follows. -/
  | loop (counter : Register) (n : ℕ) (body next : Flow)

/-- How often the body of a loop is repeated: a counter that starts at zero wraps. -/
def rounds (n : ℕ) : ℕ := if n = 0 then 2 ^ 32 else n

/-- The machine with a register counted down by one and the flags updated. -/
def Machine.countDown (m : Machine) (c : Register) : Machine :=
  m.assign c.page c.addr ((m.reg? c.page c.addr).getD 0 - 1) true

namespace Flow

/-- What a structured program does to registers and flags. -/
def exec : Flow → Machine → Machine
  | done, m => m
  | run is next, m => next.exec (is.foldl perform m)
  | loop c n body next, m =>
    next.exec ((fun m => (body.exec m).countDown c)^[rounds n] (m.setReg c.page c.addr (UInt32.ofNat n)))

/-- The counters of the loops. -/
def counters : Flow → List Register
  | done => []
  | run _ next => next.counters
  | loop c _ body next => c :: (body.counters ++ next.counters)

/-- The places of all registers that are written. -/
def writes : Flow → List (ℕ × ℕ)
  | done => []
  | run is next => is.filterMap Instr.target? ++ next.writes
  | loop c _ body next => c.place :: (body.writes ++ next.writes)

/-- No counter is written by the body of its loop, or by anything that comes after
the loop. -/
def Disciplined : Flow → Prop
  | done => True
  | run _ next => next.Disciplined
  | loop c _ body next =>
    c.place ∉ body.writes ∧ (∀ c' ∈ c :: body.counters, c'.place ∉ next.writes) ∧
      body.Disciplined ∧ next.Disciplined

theorem place_mem_writes {flow : Flow} : ∀ c ∈ flow.counters, c.place ∈ flow.writes := by
  induction flow with
  | done => simp [counters]
  | run is next ih => exact fun c hc => List.mem_append_right _ (ih c hc)
  | loop c n body next ihb ihn =>
    simp only [counters, writes, List.forall_mem_cons, List.forall_mem_append]
    refine ⟨List.mem_cons_self .., fun c hc => ?_, fun c hc => ?_⟩
    · exact List.mem_cons_of_mem _ (List.mem_append_left _ (ihb c hc))
    · exact List.mem_cons_of_mem _ (List.mem_append_right _ (ihn c hc))

/-- The code from one address up to another is that of a structured program. -/
inductive At (code : Code) : Flow → ℕ → ℕ → Prop where
  | done (a : ℕ) : At code .done a a
  | run {a b : ℕ} {is : List Instr} {next : Flow} (hs : ∀ i ∈ is, i.Straight) (hcode : code.HoldsAll a is)
      (hnext : At code next (a + slotTotal is) b) : At code (.run is next) a b
  | loop {a b d : ℕ} {c : Register} {n : ℕ} {steps : List LoadStep} {body next : Flow}
      (hload : loadSteps n = .ok steps) (hcode : code.HoldsAll a (steps.map (Build.loadInstr c.page c.addr)))
      (hbody : At code body (a + steps.length) b) (hcount : code.Holds b (Build.countDownInstr c))
      (hbranch : code.Holds (b + 1) ⟨"jnz", [.value (a + steps.length : ℕ)], false⟩)
      (hnext : At code next (b + 2) d) : At code (.loop c n body next) a d

end Flow

/-! ### What instructions in a row keep -/

theorem Machine.Code.exists_encode_of_holdsAll {code : Code} {a : ℕ} {is : List Instr} (h : code.HoldsAll a is) :
    ∀ i ∈ is, ∃ w, encode i = .ok w := by
  induction is generalizing a with
  | nil => simp
  | cons i is ih =>
    obtain ⟨⟨w, henc, -⟩, -, hrest⟩ := h
    exact List.forall_mem_cons.mpr ⟨⟨w, henc⟩, ih hrest⟩

section Row

variable {is : List Instr} {m : Machine} (hs : ∀ i ∈ is, i.Straight) (henc : ∀ i ∈ is, ∃ w, encode i = .ok w)
  (hm : 8 ≤ m.pages.size)
include hs henc hm

theorem pages_foldl_perform : (is.foldl perform m).pages.size = m.pages.size := by
  induction is generalizing m with
  | nil => rfl
  | cons i is ih =>
    rw [List.forall_mem_cons] at hs henc
    obtain ⟨w, hi⟩ := henc.1
    have hsize := hs.1.pages_perform hi (hs.1.fits hi hm)
    rw [List.foldl_cons, ih hs.2 henc.2 (by omega), hsize]

theorem reg?_foldl_perform {page reg : ℕ} (h : (page, reg) ∉ is.filterMap Instr.target?) :
    (is.foldl perform m).reg? page reg = m.reg? page reg := by
  induction is generalizing m with
  | nil => rfl
  | cons i is ih =>
    rw [List.forall_mem_cons] at hs henc
    obtain ⟨w, hi⟩ := henc.1
    have hfits := hs.1.fits hi hm
    have hsize := hs.1.pages_perform hi hfits
    simp only [List.mem_filterMap, List.mem_cons, exists_eq_or_imp, not_or] at h
    rw [List.foldl_cons, ih hs.2 henc.2 (by omega) (by simpa using h.2), hs.1.reg?_perform hi hfits h.1]

end Row

/-! ### Counting down and branching -/

section Count

variable {code : Code} {c : Register} {m : Machine}

/-- A register that can be counted down exists. -/
theorem lt_of_holds_countDown {b : ℕ} (h : code.Holds b (Build.countDownInstr c)) : c.page < 8 ∧ c.addr < 32 := by
  obtain ⟨w, henc, -⟩ := h
  have hfields : (Descriptor.ofMnemonic? "mathi").map (·.fields) =
      some [.page 0, .reg 1 41, .reg 2 36, .op 3 .arith, .imm 4] := rfl
  obtain ⟨-, haccepts⟩ := accepts_of_encode henc hfields
  obtain ⟨page, hpage, hlt⟩ := Field.accepts_page_iff.mp (haccepts (.page 0) (by simp))
  obtain ⟨addr, haddr, hlt'⟩ := Field.accepts_reg_iff.mp (haccepts (.reg 1 41) (by simp))
  have hpage : (c.page : ℤ) = page := Operand.value.inj hpage
  have haddr : (c.addr : ℤ) = addr := Operand.value.inj haddr
  omega

/-- The target of a branch is an address. -/
theorem lt_of_holds_branch {b a : ℕ} (h : code.Holds b ⟨"jnz", [.value a], false⟩) : a < 2 ^ 16 := by
  obtain ⟨w, henc, -⟩ := h
  have hfields : (Descriptor.ofMnemonic? "jnz").map (·.fields) = some [.addr 0] := rfl
  obtain ⟨-, haccepts⟩ := accepts_of_encode henc hfields
  have haddr := haccepts (.addr 0) (by simp)
  rw [Field.accepts_nat_iff (by simp [Field.addr]) (by simp [Field.addr])] at haddr
  obtain ⟨n, hn, hlt⟩ := haddr
  have hn : (a : ℤ) = n := Operand.value.inj hn
  have hlt : n < 2 ^ 16 := hlt
  omega

theorem pages_countDown (m : Machine) (c : Register) : (m.countDown c).pages.size = m.pages.size :=
  size_pages_assign ..

theorem reg?_countDown_ne {page reg : ℕ} (h : (page, reg) ≠ c.place) :
    (m.countDown c).reg? page reg = m.reg? page reg := reg?_assign_ne h _ _

theorem reg?_countDown_self (hp : c.page < m.pages.size) (hr : c.addr < 32) {x : UInt32}
    (hx : m.reg? c.page c.addr = some x) : (m.countDown c).reg? c.page c.addr = some (x - 1) := by
  rw [countDown, reg?_assign_self hp hr, hx]
  rfl

theorem zero_countDown {x : UInt32} (hx : m.reg? c.page c.addr = some x) :
    (m.countDown c).flags.zero = (x - 1 == 0) := by
  rw [countDown, hx]
  rfl

theorem steps_countDown {b : ℕ} (h : code.Holds b (Build.countDownInstr c)) (hm : 8 ≤ m.pages.size) :
    Steps code 1 (m.goto b) ((m.countDown c).goto (b + 1)) := by
  obtain ⟨hpage, haddr⟩ := lt_of_holds_countDown h
  have hp : c.page < (m.goto b).pages.size := Nat.lt_of_lt_of_le hpage hm
  obtain ⟨x, hx⟩ := exists_reg? hp haddr
  have he := execute_combineImm (show Action.ofMnemonic "mathi" = .combineImm by decide) hp haddr hx
    (show Operator.sub.eval? x (immediate 1) = some (x - 1) from rfl) b true
  have hcount : (m.goto b).assign c.page c.addr (x - 1) true = (m.countDown c).goto b := by
    rw [assign_goto, countDown, show m.reg? c.page c.addr = some x from hx]
    rfl
  rw [hcount] at he
  exact .of_holds h he (halted_assign ..)

theorem steps_branch {b a : ℕ} (h : code.Holds b ⟨"jnz", [.value a], false⟩) :
    Steps code 1 (m.goto b) (m.goto (if m.flags.zero then b + 1 else a)) := by
  have ha := lt_of_holds_branch h
  exact .of_holds h (execute_jumpNonzero (by omega) b) rfl

end Count

/-! ### Loops -/

theorem loadedWord_natCast (n : ℕ) : loadedWord n = UInt32.ofNat n := by
  rw [loadedWord, if_pos (by omega)]
  apply UInt32.toNat_inj.mp
  simp only [UInt32.ofInt, UInt32.toNat_ofNat']
  omega

theorem loadSteps_natCast {n : ℕ} {steps : List LoadStep} (h : loadSteps n = .ok steps) : n < 2 ^ 32 := by
  have := exists_loadSteps_iff.mp ⟨steps, h⟩
  omega

theorem ofNat_succ_sub_one (r : ℕ) : UInt32.ofNat (r + 1) - 1 = UInt32.ofNat r := by
  rw [UInt32.ofNat_add]
  exact UInt32.add_sub_cancel ..

/-- A counter holds the number of rounds that are left, and there is at least one. -/
theorem exists_rounds_eq {n : ℕ} (hn : n < 2 ^ 32) :
    ∃ r, rounds n = r + 1 ∧ r < 2 ^ 32 ∧ UInt32.ofNat n = UInt32.ofNat (r + 1) := by
  unfold rounds
  by_cases h : n = 0
  · exact ⟨2 ^ 32 - 1, by simp [h], by omega, by rw [h]; rfl⟩
  · exact ⟨n - 1, by rw [if_neg h]; omega, by omega, by rw [Nat.sub_add_cancel (by omega)]⟩

/-- A counter that is loaded holds the number of rounds, of which there is at least one. -/
theorem exists_rounds_loaded {code : Code} {b n : ℕ} {c : Register} {steps : List LoadStep} {m : Machine}
    (hload : loadSteps n = .ok steps) (hcount : code.Holds b (Build.countDownInstr c)) (hm : 8 ≤ m.pages.size) :
    ∃ r, rounds n = r + 1 ∧ r < 2 ^ 32 ∧
      (m.setReg c.page c.addr (UInt32.ofNat n)).reg? c.page c.addr = some (UInt32.ofNat (r + 1)) := by
  obtain ⟨hpage, haddr⟩ := lt_of_holds_countDown hcount
  obtain ⟨r, hrounds, hr, hstart⟩ := exists_rounds_eq (loadSteps_natCast hload)
  refine ⟨r, hrounds, hr, ?_⟩
  rw [← hstart]
  exact reg?_assign_self (by omega) haddr _ false

section Rounds

variable {code : Code} {c : Register} {a b : ℕ} {body : Machine → Machine}
  (hcount : code.Holds b (Build.countDownInstr c)) (hbranch : code.Holds (b + 1) ⟨"jnz", [.value a], false⟩)
  (hpages : ∀ m : Machine, 8 ≤ m.pages.size → (body m).pages.size = m.pages.size)
  (hkeep : ∀ m : Machine, 8 ≤ m.pages.size → (body m).reg? c.page c.addr = m.reg? c.page c.addr)
  (hbody : ∀ m : Machine, 8 ≤ m.pages.size → ∃ k, Steps code k (m.goto a) ((body m).goto b))
include hpages

theorem pages_iterate (r : ℕ) {m : Machine} (hm : 8 ≤ m.pages.size) :
    ((fun m => (body m).countDown c)^[r] m).pages.size = m.pages.size := by
  induction r generalizing m with
  | zero => rfl
  | succ r ih =>
    have hsize : ((body m).countDown c).pages.size = m.pages.size := by rw [pages_countDown, hpages m hm]
    rw [Function.iterate_succ_apply, ih (by omega), hsize]

theorem reg?_iterate {page reg : ℕ} (hne : (page, reg) ≠ c.place)
    (hreg : ∀ m : Machine, 8 ≤ m.pages.size → (body m).reg? page reg = m.reg? page reg) (r : ℕ) {m : Machine}
    (hm : 8 ≤ m.pages.size) :
    ((fun m => (body m).countDown c)^[r] m).reg? page reg = m.reg? page reg := by
  induction r generalizing m with
  | zero => rfl
  | succ r ih =>
    have hsize := hpages m hm
    rw [Function.iterate_succ_apply, ih (by rw [pages_countDown]; omega), reg?_countDown_ne hne, hreg m hm]

include hcount hkeep

/-- A counter that starts at the number of rounds ends at zero. -/
theorem counter_iterate (r : ℕ) {m : Machine} (hm : 8 ≤ m.pages.size)
    (hx : m.reg? c.page c.addr = some (UInt32.ofNat r)) :
    ((fun m => (body m).countDown c)^[r] m).reg? c.page c.addr = some 0 := by
  obtain ⟨hpage, haddr⟩ := lt_of_holds_countDown hcount
  induction r generalizing m with
  | zero => exact hx
  | succ r ih =>
    have hsize := hpages m hm
    have hcounter := (hkeep m hm).trans hx
    rw [Function.iterate_succ_apply]
    refine ih (by rw [pages_countDown]; omega) ?_
    rw [reg?_countDown_self (by omega) haddr hcounter, ofNat_succ_sub_one]

include hbranch hbody

/-- One round of a loop: the branch falls through exactly if the counter comes to zero. -/
theorem steps_round {r : ℕ} (hr : r < 2 ^ 32) {m : Machine} (hm : 8 ≤ m.pages.size)
    (hx : m.reg? c.page c.addr = some (UInt32.ofNat (r + 1))) :
    ∃ k, Steps code k (m.goto a) (((body m).countDown c).goto (if r = 0 then b + 2 else a)) := by
  obtain ⟨k, hk⟩ := hbody m hm
  have hsize := hpages m hm
  have hdown := steps_countDown hcount (m := body m) (by omega)
  have hzero : ((body m).countDown c).flags.zero = decide (r = 0) := by
    rw [zero_countDown ((hkeep m hm).trans hx), ofNat_succ_sub_one, Bool.eq_iff_iff, beq_iff_eq, decide_eq_true_iff,
      ← UInt32.toNat_inj, UInt32.toNat_ofNat_of_lt' hr]
    rfl
  have hjump := steps_branch hbranch (m := (body m).countDown c)
  simp only [hzero, decide_eq_true_eq] at hjump
  exact ⟨_, (hk.trans hdown).trans hjump⟩

/-- **A loop runs its rounds**: the machine goes back to the body until the counter
comes to zero, so through as many rounds as the counter held at first. -/
theorem steps_rounds {r : ℕ} (hr : r < 2 ^ 32) {m : Machine} (hm : 8 ≤ m.pages.size)
    (hx : m.reg? c.page c.addr = some (UInt32.ofNat (r + 1))) :
    ∃ k, Steps code k (m.goto a) (((fun m => (body m).countDown c)^[r + 1] m).goto (b + 2)) := by
  obtain ⟨hpage, haddr⟩ := lt_of_holds_countDown hcount
  induction r generalizing m with
  | zero => exact steps_round hcount hbranch hpages hkeep hbody hr hm hx
  | succ r ih =>
    obtain ⟨j, hj⟩ := steps_round hcount hbranch hpages hkeep hbody hr hm hx
    rw [if_neg (Nat.succ_ne_zero r)] at hj
    have hsize := hpages m hm
    have hx' : ((body m).countDown c).reg? c.page c.addr = some (UInt32.ofNat (r + 1)) := by
      rw [reg?_countDown_self (by omega) haddr ((hkeep m hm).trans hx), ofNat_succ_sub_one]
    obtain ⟨k, hk⟩ := ih (by omega) (by rw [pages_countDown]; omega) hx'
    exact ⟨_, hj.trans hk⟩

end Rounds

namespace Flow.At

variable {code : Code} {flow : Flow} {a b : ℕ} {m : Machine}

theorem pages (h : flow.At code a b) (hm : 8 ≤ m.pages.size) : (flow.exec m).pages.size = m.pages.size := by
  induction h generalizing m with
  | done => rfl
  | run hs hcode _ ih =>
    have hsize := pages_foldl_perform hs (Code.exists_encode_of_holdsAll hcode) hm
    rw [exec, ih (by omega), hsize]
  | @loop a b d c n steps body next _ _ _ hcount _ _ ihbody ihnext =>
    have hset : 8 ≤ (m.setReg c.page c.addr (UInt32.ofNat n)).pages.size := by simpa using hm
    have hsize := pages_iterate (c := c) (fun m hm => ihbody (m := m) hm) (rounds n) hset
    rw [exec, ihnext (by omega), hsize, size_pages_setReg]

/-- A register that is not written keeps its value. -/
theorem reg?_exec (h : flow.At code a b) (hm : 8 ≤ m.pages.size) {page reg : ℕ}
    (hreg : (page, reg) ∉ flow.writes) : (flow.exec m).reg? page reg = m.reg? page reg := by
  induction h generalizing m with
  | done => rfl
  | run hs hcode _ ih =>
    have henc := Code.exists_encode_of_holdsAll hcode
    have hsize := pages_foldl_perform hs henc hm
    rw [writes, List.mem_append, not_or] at hreg
    rw [exec, ih (by omega) hreg.2, reg?_foldl_perform hs henc hm hreg.1]
  | @loop a b d c n steps body next _ _ hbody _ _ _ ihbody ihnext =>
    simp only [writes, List.mem_cons, List.mem_append, not_or] at hreg
    have hset : 8 ≤ (m.setReg c.page c.addr (UInt32.ofNat n)).pages.size := by simpa using hm
    have hsize := pages_iterate (c := c) (fun m => hbody.pages) (rounds n) hset
    rw [exec, ihnext (by omega) hreg.2.2,
      reg?_iterate (fun m => hbody.pages) hreg.1 (fun m hm => ihbody hm hreg.2.1) _ hset]
    exact reg?_assign_ne hreg.1 _ false

/-- Every counter ends at zero. -/
theorem counter_eq_zero (h : flow.At code a b) (hd : flow.Disciplined) (hm : 8 ≤ m.pages.size) :
    ∀ c ∈ flow.counters, (flow.exec m).reg? c.page c.addr = some 0 := by
  induction h generalizing m with
  | done => simp [counters]
  | run hs hcode _ ih =>
    have hsize := pages_foldl_perform hs (Code.exists_encode_of_holdsAll hcode) hm
    exact ih hd (by omega)
  | @loop a b d c n steps body next hload _ hbody hcount _ hnext ihbody ihnext =>
    obtain ⟨hself, hlater, hdbody, hdnext⟩ := hd
    obtain ⟨r, hrounds, -, hx⟩ := exists_rounds_loaded hload hcount hm
    have hset : 8 ≤ (m.setReg c.page c.addr (UInt32.ofNat n)).pages.size := by simpa using hm
    have hsize := pages_iterate (c := c) (fun m => hbody.pages) r hset
    have hsize' := pages_iterate (c := c) (fun m => hbody.pages) (r + 1) hset
    rw [exec, hrounds, counters, List.forall_mem_cons, List.forall_mem_append]
    refine ⟨?_, fun c' hc' => ?_, ihnext hdnext (by omega)⟩
    · -- its own counter is left alone by the body and by what follows
      rw [hnext.reg?_exec (by omega) (hlater c (List.mem_cons_self ..))]
      exact counter_iterate hcount (fun m => hbody.pages) (fun m hm => hbody.reg?_exec hm hself) _ hset hx
    · -- a counter of the body ends at zero in the last round
      have hne : c'.place ≠ c.place := fun heq => hself (heq ▸ place_mem_writes c' hc')
      rw [hnext.reg?_exec (by omega) (hlater c' (List.mem_cons_of_mem _ hc')), Function.iterate_succ_apply',
        reg?_countDown_ne hne]
      exact ihbody hdbody (by omega) c' hc'

/-- **Structured code runs as it should**: the machine runs from the start of the code
of a structured program to its end, and does what the program says. -/
theorem steps (h : flow.At code a b) (hd : flow.Disciplined) (hm : 8 ≤ m.pages.size) :
    ∃ k, Steps code k (m.goto a) ((flow.exec m).goto b) := by
  induction h generalizing m with
  | done a => exact ⟨0, .refl _⟩
  | @run a b is next hs hcode _ ih =>
    have henc := Code.exists_encode_of_holdsAll hcode
    have hsize := pages_foldl_perform hs henc hm
    have hrun := steps_of_holdsAll hcode hs fun i hi => by
      obtain ⟨w, hw⟩ := henc i hi
      exact (hs i hi).fits hw hm
    obtain ⟨k, hk⟩ := ih (m := is.foldl perform m) hd (by omega)
    exact ⟨_, hrun.trans hk⟩
  | @loop a b d c n steps body next hload hcode hbody hcount hbranch _ ihbody ihnext =>
    obtain ⟨hself, -, hdbody, hdnext⟩ := hd
    obtain ⟨hpage, haddr⟩ := lt_of_holds_countDown hcount
    obtain ⟨r, hrounds, hr, hx⟩ := exists_rounds_loaded hload hcount hm
    have hset : 8 ≤ (m.setReg c.page c.addr (UInt32.ofNat n)).pages.size := by simpa using hm
    have hsize := pages_iterate (c := c) (fun m => hbody.pages) (r + 1) hset
    -- the load, the rounds, and what follows
    have hrun := Build.steps_load (m := m) (by omega) haddr hload hcode
    rw [loadedWord_natCast] at hrun
    obtain ⟨j, hj⟩ := steps_rounds hcount hbranch (fun m => hbody.pages)
      (fun m hm => hbody.reg?_exec hm hself) (fun m hm => ihbody hdbody hm) hr hset hx
    obtain ⟨k, hk⟩ := ihnext (m := (fun m => (body.exec m).countDown c)^[r + 1] _) hdnext (by rw [hsize]; exact hset)
    rw [exec, hrounds]
    exact ⟨_, (hrun.trans hj).trans hk⟩

end Flow.At

end PulseAsm
