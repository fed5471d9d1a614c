import PulseAsm.Proofs.Machine.Effect

/-!
# Where control goes

An instruction stays where it is, goes on to the next word, or jumps to its target, and a trap
leaves the program counter where it was. So a property of addresses that every instruction of
the code passes on holds wherever a run gets to (`Machine.run_pc`).
-/

namespace PulseAsm

namespace Machine

/-- Every instruction of the code passes a property of addresses on. -/
def Code.PassesOn (code : Code) (P : ℕ → Prop) : Prop :=
  ∀ pc i next, code[pc]? = some (.ok i) → P pc → i.Passes pc next → P next

variable {code : Code} {P : ℕ → Prop}

theorem step_pc (hcode : code.PassesOn P) {m : Machine} (hm : P m.pc) : P ((step code).apply m).2.pc := by
  have heffect := step_effect code m
  generalize (step code).apply m = res at heffect ⊢
  cases heffect with
  | missing => exact hm
  | trapped _ h => exact h.pc.symm ▸ hm
  | passed hget h => exact hcode _ _ _ hget hm (h.yields _ rfl)

/-- A property of addresses that every instruction passes on holds of the program counter
after any run. -/
theorem run_pc (hcode : code.PassesOn P) (limit : ℕ) {m : Machine} (hm : P m.pc) :
    P (run code limit m).2.pc := by
  have hmoves : ∀ {k m'}, Moves code k m m' → P m'.pc := by
    intro k m' h
    refine h.preserves (P := fun m => P m.pc) (fun m m' hm hstep => ?_) hm
    have hpc := step_pc hcode hm
    rwa [hstep] at hpc
  cases hrun : run code limit m with
  | mk r last =>
    cases run_eq_iff.mp hrun with
    | halted _ h _ => exact hmoves h
    | cutOff h _ => exact hmoves h
    | trapped _ h _ hstep =>
      have hpc := step_pc hcode (hmoves h)
      rwa [hstep] at hpc

end Machine

end PulseAsm
