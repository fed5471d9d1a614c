import PulseAsm.Proofs.Program.Blocks

/-!
# Histories of calls

A program is built by calls: the steps of scripts, and the two calls that no script can
spell out in full. Histories of calls lead to all programs that can be built, and to no
others (`reachable_iff_calls`). A call that asks for a register or opens a loop hands out
a register.

Over any history of calls, with those that fail, each register is handed out while it is
not in use, and stays in use from then on; so all of them are different, and different
from those that were in use before.
-/

namespace PulseAsm

/-- A call that builds a part of a program. -/
inductive Call where
  /-- A step of a script. -/
  | step (s : Step)
  /-- A request for a register, which may have an owner. -/
  | newReg (r : RegRequest)
  /-- A pulse with given parameters. -/
  | addPulse (ch : ℕ) (name : String) (style : Style) (params : Params)

namespace Call

/-- The program after a call, whether it succeeds or fails. -/
def run : Call → Program → Program
  | step s, p => (s.apply.apply p).2
  | newReg r, p => ((Build.newReg r).apply p).2
  | addPulse ch name style params, p => ((Build.addPulse ch name style params).apply p).2

/-- The register that a call hands out. -/
def returned? : Call → Program → Option Register
  | step (.openLoop n name), p => ((Build.openLoop n name).apply p).1.toOption
  | step (.reg page addr name kind init), p =>
    ((Build.newReg { page, addr, name, kind, init }).apply p).1.toOption
  | newReg r, p => ((Build.newReg r).apply p).1.toOption
  | _, _ => none

end Call

namespace Program

/-- The program after calls, those that fail included. -/
def afterCalls (p : Program) (calls : List Call) : Program := calls.foldl (fun p c => c.run p) p

/-- The registers that calls hand out, in order. -/
def returned : Program → List Call → List Register
  | _, [] => []
  | p, c :: calls => (c.returned? p).toList ++ (c.run p).returned calls

end Program

theorem Reachable.run {board : Board} {p : Program} (h : Reachable board p) (c : Call) : Reachable board (c.run p) := by
  cases c with
  | step s => exact .step s h
  | newReg r => exact .newReg r h
  | addPulse ch name style params => exact .addPulse ch name style params h

theorem Reachable.afterCalls {board : Board} {p : Program} (h : Reachable board p) (calls : List Call) :
    Reachable board (p.afterCalls calls) := by
  induction calls generalizing p with
  | nil => exact h
  | cons c calls ih => exact ih (h.run c)

/-- The programs that can be built are those that histories of calls lead to. -/
theorem reachable_iff_calls {board : Board} {p : Program} :
    Reachable board p ↔ ∃ p₀ calls, Program.ofBoard board = .ok p₀ ∧ p₀.afterCalls calls = p := by
  constructor
  · intro h
    have hcall : ∀ (c : Call) (p : Program),
        (∃ p₀ calls, Program.ofBoard board = .ok p₀ ∧ p₀.afterCalls calls = p) →
        ∃ p₀ calls, Program.ofBoard board = .ok p₀ ∧ p₀.afterCalls calls = c.run p := by
      rintro c _ ⟨p₀, calls, h₀, rfl⟩
      exact ⟨p₀, calls ++ [c], h₀, by simp [Program.afterCalls]⟩
    induction h with
    | start h => exact ⟨_, [], h, rfl⟩
    | step s _ ih => exact hcall (.step s) _ ih
    | newReg r _ ih => exact hcall (.newReg r) _ ih
    | addPulse ch name style params _ ih => exact hcall (.addPulse ch name style params) _ ih
  · rintro ⟨p₀, calls, h₀, rfl⟩
    exact (Reachable.start h₀).afterCalls calls

theorem Call.extends (c : Call) (p : Program) : p.Extends (c.run p) := by
  cases c with
  | step s => exact (s.edits p).extends
  | newReg r =>
    have hwithin : Build.Within (fun _ => True) (Build.newReg r) p :=
      Build.newReg_within (fun _ _ => trivial) fun _ _ _ _ => trivial
    exact Edits.extends hwithin
  | addPulse ch name style params =>
    have hwithin : Build.Within (fun _ => True) (Build.addPulse ch name style params) p :=
      Build.addPulse_within (fun _ _ => trivial) fun _ _ => trivial
    exact Edits.extends hwithin

theorem Program.extends_afterCalls (p : Program) (calls : List Call) : p.Extends (p.afterCalls calls) := by
  induction calls generalizing p with
  | nil => exact .refl p
  | cons c calls ih => exact (c.extends p).trans (ih (c.run p))

/-! ### Registers that are handed out -/

theorem Build.apply_of_toOption {α : Type} {b : Build α} {p : Program} {a : α}
    (h : (b.apply p).1.toOption = some a) : b.apply p = (.ok a, (b.apply p).2) := by
  cases hb : b.apply p with
  | mk res q =>
    rw [hb] at h
    cases res with
    | error e => cases h
    | ok a' =>
      cases h
      rfl

/-- A register that a call hands out was allocated for it. -/
theorem Call.allocates_of_returned {c : Call} {p : Program} {reg : Register} (h : c.returned? p = some reg) :
    ∃ r, p.registers.Allocates r reg (c.run p).registers := by
  unfold Call.returned? at h
  split at h
  · obtain ⟨r, registers, steps, new, halloc, -, -, -, hq⟩ := Build.openLoop_eq_ok (Build.apply_of_toOption h)
    refine ⟨r, ?_⟩
    simp only [run, Step.apply, Build.apply_discard]
    rw [hq]
    exact halloc
  · have halloc := Build.allocates_of_newReg (Build.apply_of_toOption h)
    simp only [run, Step.apply, Build.apply_discard]
    exact ⟨_, halloc⟩
  · exact ⟨_, Build.allocates_of_newReg (Build.apply_of_toOption h)⟩
  · cases h

namespace Program

variable {p : Program} {calls : List Call}

theorem mem_returned_cons {c : Call} {reg : Register} :
    reg ∈ p.returned (c :: calls) ↔ c.returned? p = some reg ∨ reg ∈ (c.run p).returned calls := by
  simp [returned]

/-- What calls hand out was not in use before them. -/
theorem isUsed_of_mem_returned {reg : Register} (h : reg ∈ p.returned calls) :
    p.registers.isUsed reg.page reg.addr = false := by
  induction calls generalizing p with
  | nil => cases h
  | cons c calls ih =>
    rcases mem_returned_cons.mp h with h | h
    · obtain ⟨r, halloc⟩ := Call.allocates_of_returned h
      exact halloc.free
    · refine Bool.eq_false_iff.mpr ?_
      intro hused
      have hfree := ih h
      rw [(c.extends p).used _ _ hused] at hfree
      cases hfree

/-- No two calls hand out the same register. -/
theorem nodup_places_returned (hp : p.registers.perPage ≤ 32) : ((p.returned calls).map (·.place)).Nodup := by
  induction calls generalizing p with
  | nil => exact List.nodup_nil
  | cons c calls ih =>
    have hrest := ih (p := c.run p) (by rw [(c.extends p).perPage]; exact hp)
    rw [returned, List.map_append]
    cases hc : c.returned? p with
    | none => exact hrest
    | some reg =>
      obtain ⟨r, halloc⟩ := Call.allocates_of_returned hc
      refine List.nodup_cons.mpr ⟨?_, hrest⟩
      intro hmem
      obtain ⟨reg', hreg', hplace⟩ := List.mem_map.mp hmem
      have htaken := halloc.taken (Nat.lt_of_lt_of_le halloc.addr_lt hp)
      have hfree := isUsed_of_mem_returned hreg'
      rw [Prod.mk.inj hplace |>.1, Prod.mk.inj hplace |>.2, htaken] at hfree
      cases hfree

end Program

end PulseAsm
