import PulseAsm.Proofs.Machine.Effect

/-!
# Bounded runs

A run ends because the program halts, because a step traps or because its limit is reached,
and only the last of these depends on the limit. So a run that was cut off can be taken up
again where it stopped, and one that has halted is the same under every limit that it keeps.

A step never traps for want of steps (`isFault_of_step`), whatever the code is. This is what
tells a run that was cut off from one that went wrong (`moves_of_cutOff`).
-/

namespace PulseAsm

namespace Machine

/-- A step on whatever code traps for a fault only. -/
theorem isFault_of_step {code : Code} {m m' : Machine} {t : Trap} (h : (step code).apply m = (.error t, m')) :
    t.IsFault := by
  have heffect := step_effect code m
  rw [h] at heffect
  cases heffect with
  | missing ht => exact ht
  | trapped _ he => exact he.faults t rfl

/-! ### Runs that are cut off -/

/-- A run that was cut off has made all its steps. -/
theorem moves_of_cutOff {code : Code} {limit n : ℕ} {m m' : Machine}
    (h : run code limit m = (.error (.stepLimit n), m')) : Moves code limit m m' := by
  cases run_eq_iff.mp h with
  | cutOff h => exact h
  | trapped _ _ _ hstep => exact absurd rfl (isFault_of_step hstep n)

end Machine

open Machine

/-- **Bounded runs compose**: whatever the words are, whatever they decode to, and from any
machine. A run that is cut off by its limit `a` can be taken up again from the machine that
it leaves: with `b` more steps it ends in the machine in which a single run of `a + b`
steps ends, and in the same way. Both halt, and the single run counts `a` steps more; or
both are cut off, each by its own limit; or a step traps in both for the same fault. A run
that halts after `k` steps is within its limit, does the same under every limit that is not
below `k`, and is cut off by every limit that is. -/
theorem bounded_runs_compose (code : Code) (m : Machine) (a : ℕ) :
    (∀ m', run code a m = (.error (.stepLimit a), m') → ∀ b, ∃ last,
      (∃ k, run code b m' = (.ok k, last) ∧ run code (a + b) m = (.ok (a + k), last)) ∨
        (run code b m' = (.error (.stepLimit b), last) ∧
          run code (a + b) m = (.error (.stepLimit (a + b)), last)) ∨
        ∃ t : Trap, (∀ n, t ≠ .stepLimit n) ∧ run code b m' = (.error t, last) ∧
          run code (a + b) m = (.error t, last)) ∧
      ∀ k m', run code a m = (.ok k, m') →
        k ≤ a ∧ (∀ c, k ≤ c → run code c m = (.ok k, m')) ∧
          ∀ c, c < k → ∃ m'', run code c m = (.error (.stepLimit c), m'') := by
  constructor
  · intro m' hrun b
    have hmoves := moves_of_cutOff hrun
    cases hrest : run code b m' with
    | mk r last =>
      refine ⟨last, ?_⟩
      cases run_eq_iff.mp hrest with
      | @halted k _ hk h hlast =>
        exact Or.inl ⟨k, rfl, run_eq_iff.mpr (.halted (Nat.add_le_add_left hk a) (hmoves.trans h) hlast)⟩
      | cutOff h hlast => exact Or.inr (Or.inl ⟨rfl, run_eq_iff.mpr (.cutOff (hmoves.trans h) hlast)⟩)
      | @trapped k m₁ _ t hk h hm₁ hstep =>
        have hwhole : Ends code (a + b) m (.error t) last :=
          .trapped (Nat.add_lt_add_left hk a) (hmoves.trans h) hm₁ hstep
        exact Or.inr (Or.inr ⟨t, isFault_of_step hstep, rfl, run_eq_iff.mpr hwhole⟩)
  · intro k m' hrun
    cases run_eq_iff.mp hrun with
    | halted hk h hm' =>
      refine ⟨hk, fun c hc => run_eq_iff.mpr (.halted hc h hm'), ?_⟩
      intro c hc
      obtain ⟨m'', hmoves, hm''⟩ := h.exists_of_lt hc
      exact ⟨m'', run_eq_iff.mpr (.cutOff hmoves hm'')⟩

/-- Twice around a count down, and then a halt: four steps. -/
def countDownCode : Code := .ofWords [0x1900020000000002, 0x3002021000000001, 0x3F00000000000000]

/-- Cut off after three of its four steps, the program halts with the last step allowed. -/
theorem bounded_runs_compose_count_down :
    ∃ m' m'' last, run countDownCode 3 (Machine.start 1) = (.error (.stepLimit 3), m') ∧
      run countDownCode 1 m' = (.ok 1, last) ∧ run countDownCode (3 + 1) (Machine.start 1) = (.ok (3 + 1), last) ∧
      run countDownCode 100 (Machine.start 1) = (.ok 4, last) ∧
      run countDownCode 2 (Machine.start 1) = (.error (.stepLimit 2), m'') := by
  have hcut : (run countDownCode 3 (Machine.start 1)).1 = .error (.stepLimit 3) := by decide +kernel
  have hhalt : (run countDownCode (3 + 1) (Machine.start 1)).1 = .ok 4 := by decide +kernel
  obtain ⟨last, ⟨k, hrest, hwhole⟩ | ⟨-, hwhole⟩ | ⟨t, -, -, hwhole⟩⟩ :=
    (bounded_runs_compose countDownCode (Machine.start 1) 3).1 _ (Prod.ext hcut rfl) 1
  · obtain rfl : k = 1 := by
      rw [hwhole, Except.ok.injEq] at hhalt
      omega
    obtain ⟨-, hlonger, hshorter⟩ := (bounded_runs_compose countDownCode (Machine.start 1) 4).2 4 last hwhole
    obtain ⟨m'', hm''⟩ := hshorter 2 (by decide)
    exact ⟨_, m'', last, Prod.ext hcut rfl, hrest, hwhole, hlonger 100 (by decide), hm''⟩
  · rw [hwhole] at hhalt
    cases hhalt
  · rw [hwhole] at hhalt
    cases hhalt

end PulseAsm
