import Mathlib.Data.List.Nodup

/-!
# Entries under keys

Tables are lists of entries, of which one is found by its key. As long as an entry
is added only under a key that is new, keys stay distinct, and every entry is the
one that is found under its key.

A table may have an index beside its entries, which tells where the entry of a key
stands. The two are written one after the other, and nothing but their agreement
(`Indexes`) makes the index worth anything.
-/

namespace PulseAsm

variable {α κ : Type} {key : α → κ} {l : List α} {a : α}

/-- A member of a list whose keys differ is found by its key. -/
theorem find?_eq_self [DecidableEq κ] (h : l.Pairwise (key · ≠ key ·)) (ha : a ∈ l) :
    l.find? (key · = key a) = some a := by
  obtain ⟨before, after, rfl⟩ := List.append_of_mem ha
  rw [List.pairwise_append] at h
  rw [List.find?_append, List.find?_eq_none.mpr, Option.none_or, List.find?_cons_of_pos]
  · simp
  · intro b hb
    simpa using h.2.2 b hb a (List.mem_cons_self ..)

/-- In a list of everything, whose keys differ, a key finds what has it. -/
theorem find?_eq_some_iff_key [DecidableEq κ] (h : l.Pairwise (key · ≠ key ·)) (hall : ∀ a, a ∈ l) {k : κ} :
    l.find? (key · = k) = some a ↔ key a = k := by
  constructor
  · intro hfind
    simpa using List.find?_some hfind
  · rintro rfl
    exact find?_eq_self h (hall a)

/-- An entry under a new key leaves the keys distinct. -/
theorem nodup_keys_concat (h : (l.map key).Nodup) (hnew : ∀ b ∈ l, key b ≠ key a) : ((l ++ [a]).map key).Nodup := by
  rw [List.map_append, List.nodup_append]
  refine ⟨h, List.nodup_singleton _, ?_⟩
  intro k hk k' hk'
  obtain ⟨b, hb, rfl⟩ := List.mem_map.mp hk
  rw [List.mem_singleton.mp hk']
  exact hnew b hb

/-! ### Indices -/

/-- An index agrees with a list of entries: it finds the place of an entry under its key, and
finds nothing else. -/
def Indexes [BEq κ] (index : List (κ × ℕ)) (key : α → κ) (l : List α) : Prop :=
  ∀ k n, index.lookup k = some n ↔ ∃ a, l[n]? = some a ∧ key a = k

namespace Indexes

variable [BEq κ] {index : List (κ × ℕ)} {k : κ} {n : ℕ}

theorem nil (key : α → κ) : Indexes [] key [] := fun k n => by simp

theorem lookup_eq_none_iff (h : Indexes index key l) : index.lookup k = none ↔ ∀ a ∈ l, key a ≠ k := by
  constructor
  · rintro hnone a ha rfl
    obtain ⟨n, hn⟩ := List.mem_iff_getElem?.mp ha
    rw [(h (key a) n).mpr ⟨a, hn, rfl⟩] at hnone
    cases hnone
  · intro hnone
    cases hk : index.lookup k with
    | none => rfl
    | some n =>
      obtain ⟨a, ha, hkey⟩ := (h k n).mp hk
      exact absurd hkey (hnone a (List.mem_of_getElem? ha))

/-- An entry under a new key goes to the end, and so does the index of the key. -/
theorem concat [LawfulBEq κ] (h : Indexes index key l) (hnew : index.lookup (key a) = none) :
    Indexes ((key a, l.length) :: index) key (l ++ [a]) := by
  intro k n
  rw [List.lookup_cons]
  by_cases hk : k = key a
  · subst hk
    rw [beq_self_eq_true, Option.some.injEq]
    constructor
    · rintro rfl
      exact ⟨a, List.getElem?_concat_length, rfl⟩
    · -- no entry before the new one has its key
      rintro ⟨b, hb, hkey⟩
      by_contra hne
      obtain ⟨hn, -⟩ := List.getElem?_eq_some_iff.mp hb
      rw [List.length_append, List.length_singleton] at hn
      rw [List.getElem?_append_left (by omega)] at hb
      exact h.lookup_eq_none_iff.mp hnew b (List.mem_of_getElem? hb) hkey
  · rw [beq_eq_false_iff_ne.mpr hk]
    dsimp only
    rw [h k n]
    constructor
    · rintro ⟨b, hb, hkey⟩
      exact ⟨b, by rw [List.getElem?_append_left (List.getElem?_eq_some_iff.mp hb).1, hb], hkey⟩
    · rintro ⟨b, hb, rfl⟩
      rw [List.getElem?_append] at hb
      split at hb
      · exact ⟨b, hb, rfl⟩
      · rw [List.getElem?_singleton] at hb
        split at hb
        · cases hb
          exact absurd rfl hk
        · cases hb

/-- No two entries have the same key. -/
theorem nodup (h : Indexes index key l) : (l.map key).Nodup := by
  refine List.pairwise_map.mpr (List.pairwise_iff_getElem.mpr fun i j hi hj hij hkey => ?_)
  have hi' := (h (key l[i]) i).mpr ⟨l[i], List.getElem?_eq_getElem hi, rfl⟩
  have hj' := (h (key l[i]) j).mpr ⟨l[j], List.getElem?_eq_getElem hj, hkey.symm⟩
  rw [hi', Option.some.injEq] at hj'
  omega

end Indexes

end PulseAsm
