import PulseAsm.Proofs.Program.Calls
import PulseAsm.Proofs.Program.Loops
import PulseAsm.Proofs.Program.Persistence

/-!
# Branches go back to their loops

Opening a loop can fail half way, with a register handed out and loaded but no label
bound, because labels are capitals and may clash where register names do not. So the
open loops are not simply the registers or labels that opening left behind.

`Program.unclosed` follows a history of calls and keeps the loops that were opened and not
closed, as they were when they were opened. `Program.Tracks` says that the program agrees:
its stack holds their counters, their labels are bound to where their bodies start, and
no two of them share a label or a counter. Each call keeps this (`Program.Tracks.run`), and
so does any history of them.
-/

namespace PulseAsm

open Text

/-! ### Loops that are open -/

/-- A loop as it was opened. -/
structure Opening where
  /-- How many rounds it is for. -/
  rounds : ℕ
  /-- The register that counts them. -/
  counter : Register
  /-- The program before the loop was opened. -/
  before : Program
  /-- The program when it was open and its body empty. -/
  body : Program

/-- The loops that are open after a call on a program, innermost first. -/
def Call.unclosed (p : Program) (os : List Opening) : Call → List Opening
  | .step (.openLoop n name) =>
    match ((Build.openLoop n name).apply p).1 with
    | .ok counter => ⟨n, counter, p, (Call.step (.openLoop n name)).run p⟩ :: os
    | .error _ => os
  | .step .closeLoop =>
    match (Build.closeLoop.apply p).1 with
    | .ok _ => os.tail
    | .error _ => os
  | _ => os

/-- The loops that are open after calls on a program with open loops. -/
def Program.unclosed : Program → List Opening → List Call → List Opening
  | _, os, [] => os
  | p, os, c :: calls => (c.run p).unclosed (c.unclosed p os) calls

/-- The loop stands in a program as it was opened: behind the program before it come the
instructions that load its counter, the label with its name in capitals is bound to the
address right behind them, and the counter is in use. -/
structure Opening.Stands (o : Opening) (p : Program) : Prop where
  before : o.before.lines <+: o.body.lines
  load : ∃ steps, loadSteps o.rounds = .ok steps ∧
    o.before.appended o.body = steps.map (Build.loadInstr o.counter.page o.counter.addr)
  lines : o.body.lines <+: p.lines
  start : o.body.nextAddr = slotSum o.body.lines
  label : p.labels.lookup (upperCase o.counter.name) = some o.body.nextAddr
  used : p.registers.isUsed o.counter.page o.counter.addr = true

theorem Opening.Stands.extends {o : Opening} {p q : Program} (h : o.Stands p) (hpq : p.Extends q) : o.Stands q := by
  obtain ⟨new, hnew⟩ := hpq.lines
  exact { h with
    lines := h.lines.trans ⟨new, hnew.symm⟩
    label := hpq.label _ _ h.label
    used := hpq.used _ _ h.used }

/-- The program has the given loops open, and keeps them apart. -/
structure Program.Tracks (p : Program) (os : List Opening) : Prop where
  loops : p.loops = os.map (·.counter)
  stands : ∀ o ∈ os, o.Stands p
  labels : (os.map fun o => upperCase o.counter.name).Nodup
  counters : (os.map fun o => o.counter.place).Nodup

/-! ### Calls that leave the stack alone -/

section Stack

variable {p q : Program}

theorem Build.Within.loops_eq {α : Type} {b : Build α}
    (h : b.Within (fun c => (∀ reg, c ≠ .enter reg) ∧ ∀ reg, c ≠ .leave reg) p) : (b.apply p).2.loops = p.loops :=
  Edits.loops_eq h (fun reg h => h.1 reg rfl) fun reg h => h.2 reg rfl

theorem Build.loops_newReg (r : RegRequest) (p : Program) : ((newReg r).apply p).2.loops = p.loops :=
  Build.Within.loops_eq (newReg_within (by simp) (by simp))

theorem Build.loops_label (name : String) (p : Program) : ((label name).apply p).2.loops = p.loops :=
  Build.Within.loops_eq (label_within (by simp))

/-- A loop that cannot be opened is not put on the stack. -/
theorem Build.loops_of_openLoop_error {n : ℕ} {name : Option String} {e : Error}
    (h : (openLoop n name).apply p = (.error e, q)) : q.loops = p.loops := by
  unfold openLoop at h
  rw [apply_get_bind] at h
  rcases apply_bind_eq_error_iff.mp h with h | ⟨reg, q₁, hreg, h⟩
  · exact (congrArg (·.2.loops) h).symm.trans (loops_newReg _ p)
  · have hloops : q₁.loops = p.loops := (congrArg (·.2.loops) hreg).symm.trans (loops_newReg _ p)
    rcases apply_bind_eq_error_iff.mp h with h | ⟨_, q₂, -, h⟩
    · exact ((congrArg (·.2.loops) h).symm.trans (loops_label _ q₁)).trans hloops
    · cases h

/-- Closing fails exactly if no loop is open, and then does nothing. -/
theorem Build.closeLoop_eq_error_iff {e : Error} :
    closeLoop.apply p = (.error e, q) ↔ p.loops = [] ∧ e = .unbalancedLoop ∧ q = p := by
  unfold closeLoop
  rw [apply_get_bind]
  cases hloops : p.loops with
  | nil => simp [eq_comm]
  | cons reg rest =>
    constructor
    · intro h
      cases h
    · rintro ⟨h, -⟩
      cases h

/-- Other calls neither open nor close a loop. -/
theorem Call.loops_run {c : Call} (hopen : ∀ n name, c ≠ .step (.openLoop n name)) (hclose : c ≠ .step .closeLoop)
    (p : Program) : (c.run p).loops = p.loops := by
  cases c with
  | step s =>
    refine (s.edits p).loops_eq ?_ ?_
    · intro reg h
      cases h
      exact hopen _ _ rfl
    · intro reg h
      cases h
      exact hclose rfl
  | newReg r => exact Build.loops_newReg r p
  | addPulse ch name style params =>
    exact Build.Within.loops_eq (Build.addPulse_within (by simp) (by simp))

end Stack

/-! ### One call, and all calls -/

namespace Program.Tracks

variable {p q : Program} {os : List Opening}

theorem empty {board : Board} (h : Program.ofBoard board = .ok p) : p.Tracks [] := by
  obtain ⟨-, registers, -, rfl⟩ := Program.ofBoard_eq_ok_iff.mp h
  exact ⟨rfl, List.forall_mem_nil _, List.nodup_nil, List.nodup_nil⟩

/-- A program that grows and leaves the stack alone has the same loops open. -/
theorem grow (h : p.Tracks os) (hpq : p.Extends q) (hloops : q.loops = p.loops) : q.Tracks os :=
  { h with
    loops := hloops.trans h.loops
    stands := fun o ho => (h.stands o ho).extends hpq }

/-- A loop that is opened gets a label and a counter that no open loop has. -/
theorem openLoop (h : p.Tracks os) (hp : p.registers.perPage ≤ 32) (hq : q.Laid) {n : ℕ} {name : Option String}
    {c : Register} (hopen : (Build.openLoop n name).apply p = (.ok c, q)) : q.Tracks (⟨n, c, p, q⟩ :: os) := by
  have hext := (Build.edits_of_openLoop hopen).extends
  obtain ⟨r, registers, steps, new, halloc, hsteps, hnew, hfree, rfl⟩ := Build.openLoop_eq_ok hopen
  refine ⟨congrArg _ h.loops, List.forall_mem_cons.mpr ⟨?_, fun o ho => (h.stands o ho).extends hext⟩,
    List.nodup_cons.mpr ⟨?_, h.labels⟩, List.nodup_cons.mpr ⟨?_, h.counters⟩⟩
  · exact {
      before := List.prefix_append _ _
      load := ⟨steps, hsteps, (Program.appended_eq rfl).trans hnew⟩
      lines := List.prefix_rfl
      start := hq.next
      label := by simp [List.lookup_append, hfree]
      used := halloc.taken (Nat.lt_of_lt_of_le halloc.addr_lt hp) }
  · -- the label was not bound, and those of open loops are
    intro hmem
    obtain ⟨o, ho, heq⟩ := List.mem_map.mp hmem
    have hlabel := (h.stands o ho).label
    rw [heq, hfree] at hlabel
    cases hlabel
  · -- the counter was not in use, and those of open loops are
    intro hmem
    obtain ⟨o, ho, heq⟩ := List.mem_map.mp hmem
    obtain ⟨hpage, haddr⟩ := Prod.mk.inj heq
    have hused := (h.stands o ho).used
    rw [hpage, haddr, halloc.free] at hused
    cases hused

/-- A loop that is closed is the one that was opened last. -/
theorem closeLoop (h : p.Tracks os) (hclose : Build.closeLoop.apply p = (.ok (), q)) :
    ∃ o rest new, os = o :: rest ∧ new.map (·.instr) = [Build.countDownInstr o.counter, Build.branchInstr o.counter] ∧
      q = { p with lines := p.lines ++ new, nextAddr := p.nextAddr + 2, loops := rest.map (·.counter) } ∧
      q.Tracks rest := by
  have hext := (Build.edits_of_closeLoop hclose).extends
  obtain ⟨c, rest, new, hloops, hnew, rfl⟩ := Build.closeLoop_eq_ok hclose
  rw [h.loops] at hloops
  obtain ⟨o, os, rfl, rfl, rfl⟩ := List.map_eq_cons_iff.mp hloops
  exact ⟨o, os, new, rfl, hnew, rfl, rfl, fun o' ho' => (h.stands o' (List.mem_cons_of_mem _ ho')).extends hext,
    (List.nodup_cons.mp h.labels).2, (List.nodup_cons.mp h.counters).2⟩

theorem run {board : Board} (hp : Reachable board p) (h : p.Tracks os) (c : Call) :
    (c.run p).Tracks (c.unclosed p os) := by
  unfold Call.unclosed
  split
  · rename_i n name
    have hrun : (Call.step (.openLoop n name)).run p = ((Build.openLoop n name).apply p).2 := by
      rw [Call.run, Step.apply, Build.apply_discard]
    cases hopen : (Build.openLoop n name).apply p with
    | mk res q =>
      rw [hopen] at hrun
      cases res with
      | ok counter =>
        have hq := (hp.run (.step (.openLoop n name))).laid
        simp only [hrun] at hq ⊢
        exact h.openLoop hp.distinct.registers.perPage hq hopen
      | error e =>
        refine h.grow (Call.extends _ p) ?_
        rw [hrun]
        exact Build.loops_of_openLoop_error hopen
  · have hrun : (Call.step .closeLoop).run p = (Build.closeLoop.apply p).2 := rfl
    cases hclose : Build.closeLoop.apply p with
    | mk res q =>
      rw [hclose] at hrun
      rw [hrun]
      cases res with
      | ok _ =>
        obtain ⟨o, rest, new, rfl, -, -, htracks⟩ := h.closeLoop hclose
        exact htracks
      | error e =>
        obtain ⟨-, -, rfl⟩ := Build.closeLoop_eq_error_iff.mp hclose
        exact h
  · rename_i hopen hclose
    exact h.grow (c.extends p) (Call.loops_run hopen hclose p)

theorem afterCalls {board : Board} (hp : Reachable board p) (h : p.Tracks os) (calls : List Call) :
    (p.afterCalls calls).Tracks (p.unclosed os calls) := by
  induction calls generalizing p os with
  | nil => exact h
  | cons c calls ih => exact ih (hp.run c) (run hp h c)

end Program.Tracks

theorem Build.resolve_branchInstr {labels : LabelTable} {c : Register} {a : ℕ}
    (h : labels.lookup (upperCase c.name) = some a) (addr : ℕ) :
    (branchInstr c).resolve labels addr = .ok ⟨"jnz", [.value a], false⟩ := by
  have hoperand : (Operand.label (upperCase c.name)).resolve labels addr = .ok (.value a) := by
    simp only [Operand.resolve, h]
  exact bind_eq_ok_iff.mpr ⟨[.value a], mapM_eq_ok_iff.mpr (.cons hoperand .nil), rfl⟩

/-- **Branches match their loops**: after any history of calls, whichever of them failed,
the stack holds the counters of the loops that were opened and not closed, last first.
The label of each is its name in capitals and is bound to the address right behind the
load of its counter; no two of them share a label or a counter. Closing a loop takes the
one on top off the stack and appends a count down of its counter, which updates the
flags, and a branch; whatever is called later, the label of the branch resolves to the
start of the body of that very loop. Closing fails exactly if no loop is open, and then
it changes nothing. -/
theorem branches_match_loops {board : Board} {p₀ : Program} (h₀ : Program.ofBoard board = .ok p₀) (calls : List Call)
    {p : Program} (hp : p₀.afterCalls calls = p) {os : List Opening} (hos : p₀.unclosed [] calls = os) :
    p.loops = os.map (·.counter) ∧
    (∀ o ∈ os, o.Stands p) ∧
    (os.map fun o => upperCase o.counter.name).Nodup ∧ (os.map fun o => o.counter.place).Nodup ∧
    (∀ q, Build.closeLoop.apply p = (.ok (), q) →
      ∃ o rest new, os = o :: rest ∧
        new.map (·.instr) = [Build.countDownInstr o.counter, Build.branchInstr o.counter] ∧
        q = { p with lines := p.lines ++ new, nextAddr := p.nextAddr + 2, loops := rest.map (·.counter) } ∧
        ∀ later addr, (Build.branchInstr o.counter).resolve (q.afterCalls later).labels addr =
          .ok ⟨"jnz", [.value o.body.nextAddr], false⟩) ∧
    ∀ e q, Build.closeLoop.apply p = (.error e, q) ↔ os = [] ∧ e = .unbalancedLoop ∧ q = p := by
  have htracks : p.Tracks os := by
    have h := (Program.Tracks.empty h₀).afterCalls (.start h₀) calls
    rwa [hp, hos] at h
  refine ⟨htracks.loops, htracks.stands, htracks.labels, htracks.counters, ?_, ?_⟩
  · intro q hclose
    obtain ⟨o, rest, new, rfl, hnew, hq, -⟩ := htracks.closeLoop hclose
    refine ⟨o, rest, new, rfl, hnew, hq, ?_⟩
    intro later addr
    have hstands := (htracks.stands o (List.mem_cons_self ..)).extends (Build.edits_of_closeLoop hclose).extends
    exact Build.resolve_branchInstr (hstands.extends (q.extends_afterCalls later)).label addr
  · intro e q
    rw [Build.closeLoop_eq_error_iff, htracks.loops, List.map_eq_nil_iff]

/-- The second loop cannot be opened, since the label of `ß` is bound already; two more are
opened after it. -/
def clashCalls : List Call :=
  [.step (.label "SS"), .step (.openLoop 2 (some "ß")), .step (.openLoop 3 (some "a")),
    .step (.openLoop 4 (some "b")), .step (.wait 5)]

/-- The register and the load of the loop that was not opened stay, but closing goes back
to the body of the last one, behind three loads. -/
theorem branches_match_loops_clash :
    ∃ p q c, bareProgram.afterCalls clashCalls = p ∧ p.loops.map (·.name) = ["b", "a"] ∧
      (p.registers.get? "ß").map (·.place) = some (0, 0) ∧ Build.closeLoop.apply p = (.ok (), q) ∧
      q.loops.map (·.name) = ["a"] ∧ c.name = "b" ∧
      ∀ later addr, (Build.branchInstr c).resolve (q.afterCalls later).labels addr =
        .ok ⟨"jnz", [.value 3], false⟩ := by
  have hos : (bareProgram.unclosed [] clashCalls).map (fun o => (o.counter.name, o.body.nextAddr)) =
      [("b", 3), ("a", 2)] := by rfl
  obtain ⟨-, -, -, -, hclose, -⟩ := branches_match_loops ofBoard_bareBoard clashCalls rfl rfl
  obtain ⟨o, rest, new, hopen, -, -, hresolve⟩ := hclose _ rfl
  rw [hopen, List.map_cons, List.cons_eq_cons] at hos
  obtain ⟨hname, hstart⟩ := Prod.mk.inj hos.1
  refine ⟨_, _, o.counter, rfl, by rfl, by rfl, rfl, by rfl, hname, ?_⟩
  intro later addr
  rw [hresolve later addr, hstart]
  rfl

end PulseAsm
