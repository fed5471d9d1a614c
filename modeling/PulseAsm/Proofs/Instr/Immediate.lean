import PulseAsm.Instr.Immediate
import Mathlib.Algebra.Ring.Int.Defs
import Mathlib.Algebra.Ring.Nat

/-!
# Immediates

When an immediate folds and what it folds to, what the low 31 bits of one stand
for, and which steps load a value.
-/

namespace PulseAsm

theorem immLimit_eq : immLimit = 2 ^ 31 := rfl

theorem directLimit_eq : directLimit = 2 ^ 30 := rfl

theorem registerLimit_eq : registerLimit = 2 ^ 32 := rfl

/-- The number that an immediate reads back as: a negative one is raised by `2^31`. -/
def foldedImm (v : ℤ) : ℤ := if v < 0 then v + 2 ^ 31 else v

theorem foldedImm_of_nonneg {v : ℤ} (h : 0 ≤ v) : foldedImm v = v := if_neg (by omega)

/-- An immediate folds exactly if it lies in `[-2^31, 2^31)`. -/
theorem foldImm_eq_ok_iff {field : String} {v : ℤ} {n : ℕ} :
    foldImm field v = .ok n ↔ (-2 ^ 31 ≤ v ∧ v < 2 ^ 31) ∧ (n : ℤ) = foldedImm v := by
  unfold foldImm foldedImm
  rw [immLimit_eq]
  by_cases h : -2 ^ 31 ≤ v ∧ v < 2 ^ 31
  · rw [if_pos h, Except.ok.injEq]
    split <;> omega
  · rw [if_neg h]
    constructor
    · intro h'
      cases h'
    · intro h'
      exact absurd h'.1 h

theorem signExtend31_eq (v : ℤ) :
    signExtend31 v = if v % 2 ^ 31 ≥ 2 ^ 30 then v % 2 ^ 31 - 2 ^ 31 else v % 2 ^ 31 := rfl

theorem signExtend31_of_exact {v : ℤ} (h : -2 ^ 30 ≤ v) (h' : v < 2 ^ 30) : signExtend31 v = v := by
  rw [signExtend31_eq]
  split <;> omega

theorem signExtend31_of_lt {v : ℤ} (h : -2 ^ 31 ≤ v) (h' : v < -2 ^ 30) : signExtend31 v = v + 2 ^ 31 := by
  rw [signExtend31_eq]
  split <;> omega

/-- One step loads a value below `2^30`; from there on it takes two, and a third
one unless the value is divisible by four. -/
theorem loadSteps_eq_ok_iff {v : ℤ} {steps : List LoadStep} :
    loadSteps v = .ok steps ↔
      (-2 ^ 31 ≤ v ∧ v < 2 ^ 30) ∧ steps = [.write v] ∨
      (2 ^ 30 ≤ v ∧ v < 2 ^ 32) ∧
        steps = .write (v / 4) :: .shiftLeft 2 :: if v % 4 = 0 then [] else [.add (v % 4)] := by
  unfold loadSteps
  rw [immLimit_eq, directLimit_eq, registerLimit_eq]
  by_cases hlow : -2 ^ 31 ≤ v ∧ v < 2 ^ 30
  · rw [if_pos hlow, Except.ok.injEq]
    constructor
    · rintro rfl
      exact Or.inl ⟨hlow, rfl⟩
    · rintro (⟨-, rfl⟩ | ⟨hhigh, -⟩)
      · rfl
      · omega
  · rw [if_neg hlow]
    by_cases hhigh : 2 ^ 30 ≤ v ∧ v < 2 ^ 32
    · rw [if_pos hhigh, Except.ok.injEq]
      constructor
      · rintro rfl
        exact Or.inr ⟨hhigh, rfl⟩
      · rintro (⟨h, -⟩ | ⟨-, rfl⟩)
        · exact absurd h hlow
        · rfl
    · rw [if_neg hhigh]
      constructor
      · intro h
        cases h
      · rintro (⟨h, -⟩ | ⟨h, -⟩)
        · exact absurd h hlow
        · exact absurd h hhigh

/-- A value can be loaded exactly if it lies in `[-2^31, 2^32)`. -/
theorem exists_loadSteps_iff {v : ℤ} : (∃ steps, loadSteps v = .ok steps) ↔ -2 ^ 31 ≤ v ∧ v < 2 ^ 32 := by
  simp only [loadSteps_eq_ok_iff]
  constructor
  · rintro ⟨steps, ⟨h, -⟩ | ⟨h, -⟩⟩ <;> omega
  · intro h
    by_cases hlow : v < 2 ^ 30
    · exact ⟨_, Or.inl ⟨⟨h.1, hlow⟩, rfl⟩⟩
    · exact ⟨_, Or.inr ⟨⟨by omega, h.2⟩, rfl⟩⟩

end PulseAsm
