import PulseAsm.Json.Reader
import Mathlib.Data.List.Induction

/-!
# Members of an object

An object is a finite map from names to values: of the members of one name the last counts
(`Json.valueOf?`), and its own objects are read the same way. `Json.sortMembers` lists the map in
the order of the names, each name once (`Json.sorted_sortMembers`, `Json.mem_sorted_iff`).
-/

namespace PulseAsm.Json

/-- The value that an object gives to a name. -/
def valueOf? (members : List (String × Json)) (name : String) : Option Json :=
  (members.reverse.find? (·.1 = name)).map fun m => canonical m.2

variable {name : String} {v : Json} {members : List (String × Json)}

theorem canonicalMembers_eq (members : List (String × Json)) :
    canonicalMembers members = members.map fun m => (m.1, canonical m.2) := by
  induction members with
  | nil => rfl
  | cons m members ih =>
    obtain ⟨name, v⟩ := m
    rw [canonicalMembers, ih]
    rfl

/-! ### The order of the names -/

/-- Members in the order of their names, each name once. -/
abbrev Sorted (members : List (String × Json)) : Prop := members.Pairwise (·.1 < ·.1)

theorem lt_of_not_lt_of_ne {a b : String} (hlt : ¬ a < b) (hne : a ≠ b) : b < a := by
  by_contra h
  exact hne (String.le_antisymm (String.not_lt.mp h) (String.not_lt.mp hlt))

/-- The members after one more was put in: it stands for its name, and the others are still there. -/
theorem mem_insertMember_iff (h : Sorted members) {m : String × Json} :
    m ∈ insertMember name v members ↔ m = (name, v) ∨ m.1 ≠ name ∧ m ∈ members := by
  induction members with
  | nil => simp [insertMember]
  | cons first members ih =>
    obtain ⟨n, w⟩ := first
    obtain ⟨hfirst, hrest⟩ := List.pairwise_cons.mp h
    have hlater : m ∈ members → m.1 ≠ n := fun hm heq => String.lt_irrefl n (heq ▸ hfirst m hm)
    unfold insertMember
    split
    · rename_i hlt
      -- all names that are there come after the new one
      have hne : m ∈ (n, w) :: members → m.1 ≠ name := by
        rintro hm rfl
        rcases List.mem_cons.mp hm with rfl | hm
        · exact String.lt_irrefl n hlt
        · exact String.lt_asymm hlt (hfirst m hm)
      rw [List.mem_cons, and_iff_right_of_imp hne]
    · split
      · -- the first member gives way; none of the others has its name
        rename_i heq
        subst heq
        rw [List.mem_cons, List.mem_cons, and_or_left, and_iff_right_of_imp hlater]
        refine or_congr_right (iff_or_self.mpr ?_)
        rintro ⟨hne, rfl⟩
        exact absurd rfl hne
      · rename_i hne
        rw [List.mem_cons, List.mem_cons, ih hrest, and_or_left, or_left_comm]
        refine or_congr_right (or_congr_left ⟨?_, And.right⟩)
        rintro rfl
        exact ⟨Ne.symm hne, rfl⟩

theorem sorted_insertMember (h : Sorted members) : Sorted (insertMember name v members) := by
  induction members with
  | nil => exact List.pairwise_singleton _ _
  | cons first members ih =>
    obtain ⟨n, w⟩ := first
    obtain ⟨hfirst, hrest⟩ := List.pairwise_cons.mp h
    unfold insertMember
    split
    · rename_i hlt
      refine List.pairwise_cons.mpr ⟨List.forall_mem_cons.mpr ⟨hlt, fun m hm => ?_⟩, h⟩
      exact String.lt_trans hlt (hfirst m hm)
    · rename_i hlt
      split
      · rename_i heq
        exact heq ▸ List.pairwise_cons.mpr ⟨hfirst, hrest⟩
      · rename_i hne
        refine List.pairwise_cons.mpr ⟨fun m hm => ?_, ih hrest⟩
        rcases (mem_insertMember_iff hrest).mp hm with rfl | ⟨-, hm⟩
        · exact lt_of_not_lt_of_ne hlt hne
        · exact hfirst m hm

theorem sorted_sortMembers (members : List (String × Json)) : Sorted (sortMembers members) := by
  unfold sortMembers
  exact List.foldlRecOn (motive := Sorted) members _ List.Pairwise.nil fun _ hacc _ _ => sorted_insertMember hacc

/-- The member of a name is the last one. -/
theorem mem_sortMembers_iff (members : List (String × Json)) (m : String × Json) :
    m ∈ sortMembers members ↔ members.reverse.find? (·.1 = m.1) = some m := by
  induction members using List.reverseRecOn with
  | nil => simp [sortMembers]
  | append_singleton members last ih =>
    obtain ⟨n, w⟩ := last
    have hstep : sortMembers (members ++ [(n, w)]) = insertMember n w (sortMembers members) := by
      simp [sortMembers]
    rw [hstep, mem_insertMember_iff (sorted_sortMembers members), ih, List.reverse_append, List.reverse_singleton,
      List.singleton_append]
    by_cases hname : n = m.1
    · subst hname
      rw [List.find?_cons_of_pos (by simp), Option.some_inj]
      simp [eq_comm]
    · have hne : m ≠ (n, w) := fun heq => hname (heq ▸ rfl)
      rw [List.find?_cons_of_neg (by simpa using hname)]
      simp [hne, Ne.symm hname]

/-- The members of an object in the order of their names are the values that it gives to names. -/
theorem mem_sorted_iff : (name, v) ∈ sortMembers (canonicalMembers members) ↔ valueOf? members name = some v := by
  rw [mem_sortMembers_iff, canonicalMembers_eq, ← List.map_reverse, List.find?_map, valueOf?]
  have hcomp : ((fun m : String × Json => decide (m.1 = name)) ∘ fun m : String × Json => (m.1, canonical m.2)) =
      fun m => decide (m.1 = name) := rfl
  rw [hcomp]
  cases hfind : members.reverse.find? (·.1 = name) with
  | none => simp
  | some m =>
    have hm : m.1 = name := by simpa using List.find?_some hfind
    simp [hm]

theorem lookup_eq_some_iff_mem (h : Sorted members) : members.lookup name = some v ↔ (name, v) ∈ members := by
  rw [List.lookup_eq_some_iff]
  constructor
  · rintro ⟨before, after, rfl, -⟩
    simp
  · intro hm
    obtain ⟨before, after, rfl⟩ := List.append_of_mem hm
    refine ⟨before, after, rfl, fun m hbefore => ?_⟩
    have hlt : m.1 < name := (List.pairwise_append.mp h).2.2 m hbefore (name, v) (List.mem_cons_self ..)
    have hne : name ≠ m.1 := fun heq => String.lt_irrefl m.1 (by rwa [heq] at hlt)
    simpa using hne

theorem lookup_sorted (members : List (String × Json)) (name : String) :
    (sortMembers (canonicalMembers members)).lookup name = valueOf? members name := by
  refine Option.ext fun v => ?_
  rw [lookup_eq_some_iff_mem (sorted_sortMembers _), mem_sorted_iff]

end PulseAsm.Json
