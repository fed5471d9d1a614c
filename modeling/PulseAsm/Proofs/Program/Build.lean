import PulseAsm.Program.Basic
import Mathlib.Data.Nat.Notation

/-!
# Building steps as functions

What a building step does to a program, by the way the step is put together:
`Build.apply` of each operation of the monad.
-/

namespace PulseAsm.Build

variable {α β : Type} (p : Program)

@[simp] theorem apply_pure (a : α) : (pure a : Build α).apply p = (.ok a, p) := rfl

@[simp] theorem apply_throw (e : Error) : (throw e : Build α).apply p = (.error e, p) := rfl

@[simp] theorem apply_get : (get : Build Program).apply p = (.ok p, p) := rfl

@[simp] theorem apply_set (q : Program) : (set q : Build Unit).apply p = (.ok (), q) := rfl

@[simp] theorem apply_modify (f : Program → Program) : (modify f : Build Unit).apply p = (.ok (), f p) := rfl

@[simp] theorem apply_lift (x : Except Error α) : (liftM x : Build α).apply p = (x, p) := by
  cases x <;> rfl

/-- The second step starts from the program that the first leaves, unless the
first fails. -/
theorem apply_bind (x : Build α) (f : α → Build β) :
    (x >>= f).apply p =
      match x.apply p with
      | (.ok a, q) => (f a).apply q
      | (.error e, q) => (.error e, q) := by
  unfold Build.apply
  rw [ExceptT.run_bind, StateT.run_bind]
  rcases StateT.run (ExceptT.run x) p with ⟨_ | a, q⟩ <;> rfl

@[simp] theorem apply_map (f : α → β) (x : Build α) :
    (f <$> x).apply p = ((x.apply p).1.map f, (x.apply p).2) := by
  have h : f <$> x = x >>= fun a => pure (f a) := rfl
  rw [h, apply_bind]
  rcases x.apply p with ⟨_ | a, q⟩ <;> rfl

@[simp] theorem apply_discard (x : Build α) :
    (discard x).apply p = ((x.apply p).1.map fun _ => (), (x.apply p).2) := apply_map p _ x

@[simp] theorem apply_get_bind (f : Program → Build β) : (get >>= f).apply p = (f p).apply p := by
  rw [apply_bind, apply_get]

@[simp] theorem apply_lift_bind (x : Except Error α) (f : α → Build β) :
    ((liftM x : Build α) >>= f).apply p =
      match x with
      | .ok a => (f a).apply p
      | .error e => (.error e, p) := by
  rw [apply_bind, apply_lift]
  cases x <;> rfl

theorem apply_forM_cons (a : α) (l : List α) (f : α → Build PUnit) :
    ((a :: l).forM f).apply p = (f a >>= fun _ => l.forM f).apply p := rfl

variable {p}

/-- A sequence succeeds exactly if both steps do, one from where the other ends. -/
theorem apply_bind_eq_ok_iff {x : Build α} {f : α → Build β} {b : β} {r : Program} :
    (x >>= f).apply p = (.ok b, r) ↔ ∃ a q, x.apply p = (.ok a, q) ∧ (f a).apply q = (.ok b, r) := by
  rw [apply_bind]
  constructor
  · intro h
    cases hx : x.apply p with
    | mk res q =>
      rw [hx] at h
      cases res with
      | error e => cases h
      | ok a => exact ⟨a, q, rfl, h⟩
  · rintro ⟨a, q, hx, hf⟩
    rw [hx]
    exact hf

/-- A sequence fails exactly if the first step does, or the second from where the first ends. -/
theorem apply_bind_eq_error_iff {x : Build α} {f : α → Build β} {e : Error} {r : Program} :
    (x >>= f).apply p = (.error e, r) ↔
      x.apply p = (.error e, r) ∨ ∃ a q, x.apply p = (.ok a, q) ∧ (f a).apply q = (.error e, r) := by
  rw [apply_bind]
  rcases x.apply p with ⟨_ | a, q⟩ <;> simp [and_assoc]

/-- What becomes of a sequence: the first step ends it with an error, or the second goes on. -/
theorem apply_bind_cases {x : Build α} {f : α → Build β} {res : Except Error β} {r : Program}
    (h : (x >>= f).apply p = (res, r)) :
    (∃ e, x.apply p = (.error e, r) ∧ res = .error e) ∨ ∃ a q, x.apply p = (.ok a, q) ∧ (f a).apply q = (res, r) := by
  cases res with
  | error e =>
    rcases apply_bind_eq_error_iff.mp h with hx | hf
    · exact Or.inl ⟨e, hx, rfl⟩
    · exact Or.inr hf
  | ok b => exact Or.inr (apply_bind_eq_ok_iff.mp h)

theorem apply_lift_bind_cases {x : Except Error α} {f : α → Build β} {res : Except Error β} {r : Program}
    (h : ((liftM x : Build α) >>= f).apply p = (res, r)) :
    (∃ e, x = .error e ∧ res = .error e ∧ r = p) ∨ ∃ a, x = .ok a ∧ (f a).apply p = (res, r) := by
  rcases apply_bind_cases h with ⟨e, hx, hres⟩ | ⟨a, q, hx, hf⟩
  · rw [apply_lift] at hx
    obtain ⟨herr, hr⟩ := Prod.mk.inj hx
    exact Or.inl ⟨e, herr, hres, hr.symm⟩
  · rw [apply_lift] at hx
    obtain ⟨hok, rfl⟩ := Prod.mk.inj hx
    exact Or.inr ⟨a, hok, hf⟩

/-- A computation that leaves the program alone succeeds first, and then what follows it. -/
theorem apply_lift_bind_eq_ok_iff {x : Except Error α} {f : α → Build β} {b : β} {r : Program} :
    ((liftM x : Build α) >>= f).apply p = (.ok b, r) ↔ ∃ a, x = .ok a ∧ (f a).apply p = (.ok b, r) := by
  rw [apply_lift_bind]
  cases x with
  | error e => simp
  | ok a => simp

/-- What holds of the program and of every result, one after the other, holds in the end. -/
theorem forall_of_mapM {P : Program → Prop} {Q : β → Prop} {l : List α} {f : α → Build β} {bs : List β} {q : Program}
    (hf : ∀ a ∈ l, ∀ p b q, P p → (f a).apply p = (.ok b, q) → P q ∧ Q b) (hp : P p)
    (h : (l.mapM f).apply p = (.ok bs, q)) : P q ∧ ∀ b ∈ bs, Q b := by
  induction l generalizing p bs with
  | nil =>
    cases h
    exact ⟨hp, List.forall_mem_nil _⟩
  | cons a l ih =>
    rw [List.forall_mem_cons] at hf
    rw [List.mapM_cons, apply_bind_eq_ok_iff] at h
    obtain ⟨b, p₁, ha, h⟩ := h
    obtain ⟨rest, p₂, hl, h⟩ := apply_bind_eq_ok_iff.mp h
    cases h
    obtain ⟨hp₁, hb⟩ := hf.1 p b p₁ hp ha
    obtain ⟨hq, hrest⟩ := ih hf.2 hp₁ hl
    exact ⟨hq, List.forall_mem_cons.mpr ⟨hb, hrest⟩⟩

theorem apply_discard_eq_ok_iff {x : Build α} {q : Program} :
    (discard x).apply p = (.ok (), q) ↔ ∃ a, x.apply p = (.ok a, q) := by
  rw [apply_discard]
  rcases x.apply p with ⟨_ | a, q'⟩ <;> simp [Except.map]

end PulseAsm.Build
