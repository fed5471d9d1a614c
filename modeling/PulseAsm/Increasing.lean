/-!
# Increasing lists

Sets of numbers are lists in increasing order, with each number once.
-/

namespace PulseAsm

/-- A number put in its place in an increasing list, unless it is there. -/
def insertIncreasing (n : Nat) : List Nat → List Nat
  | [] => [n]
  | m :: rest =>
    if n < m then n :: m :: rest
    else if n = m then m :: rest
    else m :: insertIncreasing n rest

theorem mem_insertIncreasing {n k : Nat} {l : List Nat} : k ∈ insertIncreasing n l ↔ k = n ∨ k ∈ l := by
  induction l with
  | nil => simp [insertIncreasing]
  | cons m l ih =>
    unfold insertIncreasing
    split
    · simp
    · split
      · rename_i hnm
        simp [hnm]
      · simp only [List.mem_cons, ih]
        exact or_left_comm

theorem pairwise_insertIncreasing {l : List Nat} (h : l.Pairwise (· < ·)) (n : Nat) :
    (insertIncreasing n l).Pairwise (· < ·) := by
  induction l with
  | nil => simp [insertIncreasing]
  | cons m l ih =>
    rw [List.pairwise_cons] at h
    unfold insertIncreasing
    split
    · rename_i hnm
      refine List.pairwise_cons.mpr ⟨fun k hk => ?_, List.pairwise_cons.mpr h⟩
      rcases List.mem_cons.mp hk with rfl | hk
      · exact hnm
      · exact Nat.lt_trans hnm (h.1 k hk)
    · split
      · exact List.pairwise_cons.mpr h
      · refine List.pairwise_cons.mpr ⟨fun k hk => ?_, ih h.2⟩
        rcases mem_insertIncreasing.mp hk with rfl | hk
        · omega
        · exact h.1 k hk

/-- Numbers in increasing order, each once. -/
def increasing (ns : List Nat) : List Nat := ns.foldl (fun acc n => insertIncreasing n acc) []

theorem mem_increasing {n : Nat} {l : List Nat} : n ∈ increasing l ↔ n ∈ l := by
  have hfold : ∀ acc : List Nat, n ∈ l.foldl (fun acc n => insertIncreasing n acc) acc ↔ n ∈ acc ∨ n ∈ l := by
    induction l with
    | nil => simp
    | cons m l ih =>
      intro acc
      rw [List.foldl_cons, ih, mem_insertIncreasing, List.mem_cons, or_assoc]
      exact or_left_comm
  simpa [increasing] using hfold []

theorem pairwise_increasing (l : List Nat) : (increasing l).Pairwise (· < ·) := by
  have hfold : ∀ acc : List Nat, acc.Pairwise (· < ·) →
      (l.foldl (fun acc n => insertIncreasing n acc) acc).Pairwise (· < ·) := by
    induction l with
    | nil => exact fun _ h => h
    | cons m l ih => exact fun acc h => ih _ (pairwise_insertIncreasing h m)
  exact hfold [] .nil

end PulseAsm
