import Mathlib.Data.List.Forall2

/-!
# Outcomes

How a computation in `Except` that succeeds comes apart: a sequence of two into
both parts, a walk over a list into one success for each member.

A computation that works in place (`InPlace`) leaves something behind even if it
fails: what it has written by then is not taken back.
-/

namespace PulseAsm

/-- A computation that changes a state in place, and may fail on the way. -/
abbrev InPlace (ε σ α : Type) : Type := ExceptT ε (StateM σ) α

/-- The result or the error, and the state as it is then. -/
def InPlace.apply {ε σ α : Type} (b : InPlace ε σ α) (s : σ) : Except ε α × σ := StateT.run (ExceptT.run b) s

theorem InPlace.apply_get_bind {ε σ α : Type} (f : σ → InPlace ε σ α) (s : σ) : (get >>= f).apply s = (f s).apply s := rfl

theorem InPlace.apply_ok_bind {ε σ α β : Type} (a : α) (f : α → InPlace ε σ β) (s : σ) :
    ((liftM (.ok a : Except ε α) : InPlace ε σ α) >>= f).apply s = (f a).apply s := rfl

/-- What is left of a state by a computation that returns the new one: the result with the
new state, or the error with the state as it was. -/
def leave {ε σ α : Type} (s : σ) : Except ε (α × σ) → Except ε α × σ
  | .ok r => (.ok r.1, r.2)
  | .error e => (.error e, s)

/-- A computation in place that starts with a check goes on like one that does not work in
place, if all that follows does. -/
theorem InPlace.apply_check_bind {ε σ α β : Type} {x : Except ε α} {f : α → InPlace ε σ β} {g : α → Except ε (β × σ)}
    {s : σ} (h : ∀ a, (f a).apply s = leave s (g a)) :
    ((liftM x : InPlace ε σ α) >>= f).apply s = leave s (x >>= g) := by
  cases x with
  | error e => rfl
  | ok a => exact h a

/-- A sequence succeeds exactly if both parts do. -/
theorem bind_eq_ok_iff {ε α β : Type} {x : Except ε α} {f : α → Except ε β} {b : β} :
    x >>= f = .ok b ↔ ∃ a, x = .ok a ∧ f a = .ok b := by
  cases x with
  | error e => simp [bind, Except.bind]
  | ok a => simp [bind, Except.bind]

/-- A sequence fails exactly if the first part does, or the second part after it. -/
theorem bind_eq_error_iff {ε α β : Type} {x : Except ε α} {f : α → Except ε β} {e : ε} :
    x >>= f = .error e ↔ x = .error e ∨ ∃ a, x = .ok a ∧ f a = .error e := by
  cases x with
  | error e => simp [bind, Except.bind]
  | ok a => simp [bind, Except.bind]

/-- A walk over a list succeeds exactly if every member does, and collects what
the members yield. -/
theorem mapM_eq_ok_iff {ε α β : Type} {f : α → Except ε β} {l : List α} {r : List β} :
    l.mapM f = .ok r ↔ List.Forall₂ (fun a b => f a = .ok b) l r := by
  induction l generalizing r with
  | nil => simp [pure, Except.pure, eq_comm]
  | cons a l ih =>
    rw [List.mapM_cons, bind_eq_ok_iff, List.forall₂_cons_left_iff]
    constructor
    · rintro ⟨b, hb, h⟩
      obtain ⟨r', hr', h⟩ := bind_eq_ok_iff.mp h
      exact ⟨b, r', hb, ih.mp hr', (Except.ok.inj h).symm⟩
    · rintro ⟨b, r', hb, hr', rfl⟩
      exact ⟨b, hb, bind_eq_ok_iff.mpr ⟨r', ih.mpr hr', rfl⟩⟩

theorem seq_eq_ok_iff {ε β : Type} {x : Except ε Unit} {y : Except ε β} {b : β} :
    (x >>= fun _ => y) = .ok b ↔ x = .ok () ∧ y = .ok b :=
  bind_eq_ok_iff.trans ⟨fun ⟨_, hx, hy⟩ => ⟨hx, hy⟩, fun ⟨hx, hy⟩ => ⟨(), hx, hy⟩⟩

/-- A walk over a list for its effect succeeds exactly if every member does. -/
theorem forM_eq_ok_iff {ε α : Type} {f : α → Except ε Unit} {l : List α} :
    l.forM f = .ok () ↔ ∀ a ∈ l, f a = .ok () := by
  induction l with
  | nil => simp [pure, Except.pure]
  | cons a l ih =>
    rw [List.forall_mem_cons, ← ih]
    exact seq_eq_ok_iff

/-- A walk over a list comes out the same if each member does. -/
theorem mapM_congr {ε α β : Type} {f g : α → Except ε β} {l : List α} (h : ∀ a ∈ l, f a = g a) :
    l.mapM f = l.mapM g := by
  induction l with
  | nil => rfl
  | cons a l ih =>
    rw [List.forall_mem_cons] at h
    rw [List.mapM_cons, List.mapM_cons, h.1, ih h.2]

/-- What a walk over a list collects comes from its members. -/
theorem exists_of_mem_mapM {ε α β : Type} {f : α → Except ε β} {l : List α} {r : List β} (h : l.mapM f = .ok r)
    {b : β} (hb : b ∈ r) : ∃ a ∈ l, f a = .ok b := by
  rw [mapM_eq_ok_iff] at h
  induction h with
  | nil => cases hb
  | @cons a c l r hac _ ih =>
    rcases List.mem_cons.mp hb with rfl | hb
    · exact ⟨a, List.mem_cons_self .., hac⟩
    · obtain ⟨a', ha', h⟩ := ih hb
      exact ⟨a', List.mem_cons_of_mem _ ha', h⟩

/-- What a member of a list yields is collected by a walk over the list. -/
theorem exists_mem_of_mapM {ε α β : Type} {f : α → Except ε β} {l : List α} {r : List β} (h : l.mapM f = .ok r)
    {a : α} (ha : a ∈ l) : ∃ b ∈ r, f a = .ok b := by
  rw [mapM_eq_ok_iff] at h
  induction h with
  | nil => cases ha
  | @cons c b l r hcb _ ih =>
    rcases List.mem_cons.mp ha with rfl | ha
    · exact ⟨b, List.mem_cons_self .., hcb⟩
    · obtain ⟨b', hb', h⟩ := ih ha
      exact ⟨b', List.mem_cons_of_mem _ hb', h⟩

/-- What a member of a list yields stands at its place in what a walk over the list collects. -/
theorem exists_getElem?_of_mapM {ε α β : Type} {f : α → Except ε β} {l : List α} {r : List β} (h : l.mapM f = .ok r)
    {k : ℕ} {a : α} (ha : l[k]? = some a) : ∃ b, f a = .ok b ∧ r[k]? = some b := by
  rw [mapM_eq_ok_iff] at h
  induction h generalizing k with
  | nil => cases ha
  | @cons c b l r hcb _ ih =>
    cases k with
    | zero =>
      obtain rfl := Option.some.inj ha
      exact ⟨b, hcb, rfl⟩
    | succ k => exact ih ha

/-- A walk over a list fails exactly if a member fails after others that succeed, and
with the error of that member. -/
theorem mapM_eq_error_iff {ε α β : Type} {f : α → Except ε β} {l : List α} {e : ε} :
    l.mapM f = .error e ↔
      ∃ pre a post, l = pre ++ a :: post ∧ (∀ b ∈ pre, ∃ c, f b = .ok c) ∧ f a = .error e := by
  induction l with
  | nil => simp [pure, Except.pure]
  | cons a l ih =>
    rw [List.mapM_cons, bind_eq_error_iff]
    constructor
    · rintro (h | ⟨b, hb, h⟩)
      · exact ⟨[], a, l, rfl, List.forall_mem_nil _, h⟩
      · rcases bind_eq_error_iff.mp h with h | ⟨_, -, h⟩
        · obtain ⟨pre, c, post, rfl, hpre, hc⟩ := ih.mp h
          exact ⟨a :: pre, c, post, rfl, List.forall_mem_cons.mpr ⟨⟨b, hb⟩, hpre⟩, hc⟩
        · cases h
    · rintro ⟨pre, c, post, hl, hpre, hc⟩
      cases pre with
      | nil =>
        cases hl
        exact Or.inl hc
      | cons b pre =>
        cases hl
        obtain ⟨hb, hpre⟩ := List.forall_mem_cons.mp hpre
        obtain ⟨r, hr⟩ := hb
        exact Or.inr ⟨r, hr, bind_eq_error_iff.mpr (Or.inl (ih.mpr ⟨pre, c, post, rfl, hpre, hc⟩))⟩

/-- A walk over a list fails with the error of a member. -/
theorem exists_of_mapM_error {ε α β : Type} {f : α → Except ε β} {l : List α} {e : ε}
    (h : l.mapM f = .error e) : ∃ a ∈ l, f a = .error e := by
  obtain ⟨pre, a, post, rfl, -, ha⟩ := mapM_eq_error_iff.mp h
  exact ⟨a, by simp, ha⟩

/-- A walk over a list succeeds if every member does. -/
theorem exists_mapM_iff {ε α β : Type} {f : α → Except ε β} {l : List α} :
    (∃ r, l.mapM f = .ok r) ↔ ∀ a ∈ l, ∃ b, f a = .ok b := by
  simp only [mapM_eq_ok_iff]
  induction l with
  | nil => simp
  | cons a l ih =>
    rw [List.forall_mem_cons, ← ih]
    constructor
    · rintro ⟨_, h⟩
      obtain ⟨b, r, hb, hr, rfl⟩ := List.forall₂_cons_left_iff.mp h
      exact ⟨⟨b, hb⟩, r, hr⟩
    · rintro ⟨⟨b, hb⟩, r, hr⟩
      exact ⟨b :: r, .cons hb hr⟩

end PulseAsm
