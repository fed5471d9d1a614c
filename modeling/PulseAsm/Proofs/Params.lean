import PulseAsm.Proofs.Json
import PulseAsm.Proofs.Outcome
import PulseAsm.Proofs.Pulse
import Mathlib.Algebra.Ring.Nat
import Mathlib.Data.List.Sort

/-!
# Which parameters are taken

Parameters come from an object, and are read by one table and checked by another. `Params.Accepted`
says which objects get through both, and `Params.Rejected` what is reported of the others, one cause
after the other.

Both speak of the object as a map from names to values (`Json.valueOf?`). What one member does to the
parameters is in `Params.setAll_cons`. From it come the type of every value that is read, the first
value of a wrong type in the order of the names, and the parameters that are defined in the end.
-/

namespace PulseAsm

open Json

/-! ### Values of a type -/

/-- The value names something: as a text, or as the only member of an object, without content. -/
def Json.Names (v : Json) (s : String) : Prop := v = .str s ∨ v = .obj [(s, .null)]

/-- The value has the type of the parameter. -/
def Param.Takes (p : Param) (v : Json) : Prop :=
  match p with
  | .freq | .phase | .gain => (∃ n, v = .int n) ∨ ∃ x, v = .float x
  | .length => ∃ n : ℕ, n < 2 ^ 32 ∧ v = .int n
  | .envelope => ∃ s, v = .str s
  | .phaseReset => (∃ b, v = .bool b) ∨ v = .int 0 ∨ v = .int 1
  | .idle => ∃ level : IdleLevel, v.Names level.name
  | .mode => ∃ mode : RunMode, v.Names mode.name
  | .source => ∃ source : OutputSource, v.Names source.name

theorem Param.ofName?_eq_some_iff {s : String} {p : Param} : ofName? s = some p ↔ p.name = s :=
  find?_eq_some_iff_key (by decide) Param.mem_all

theorem Style.ofName?_eq_some_iff {s : String} {style : Style} : ofName? s = some style ↔ style.name = s :=
  find?_eq_some_iff_key (by decide) fun style => by cases style <;> decide

theorem Style.ofName_eq_ok_iff {s : String} {style : Style} : ofName s = .ok style ↔ style.name = s := by
  rw [← ofName?_eq_some_iff, ofName]
  cases ofName? s <;> simp

theorem Style.ofName_eq_error_iff {s : String} {e : Error} :
    ofName s = .error e ↔ (∀ style : Style, style.name ≠ s) ∧ e = .unknownStyle s := by
  simp only [ne_eq, ← ofName?_eq_some_iff, ofName]
  cases ofName? s <;> simp [eq_comm]

theorem IdleLevel.ofName?_eq_some_iff {s : String} {level : IdleLevel} : ofName? s = some level ↔ level.name = s :=
  find?_eq_some_iff_key (by decide) fun level => by cases level <;> decide

theorem RunMode.ofName?_eq_some_iff {s : String} {mode : RunMode} : ofName? s = some mode ↔ mode.name = s :=
  find?_eq_some_iff_key (by decide) fun mode => by cases mode <;> decide

theorem OutputSource.ofName?_eq_some_iff {s : String} {source : OutputSource} :
    ofName? s = some source ↔ source.name = s :=
  find?_eq_some_iff_key (by decide) fun source => by cases source <;> decide

theorem Param.name_injective {p q : Param} (h : p.name = q.name) : p = q := by
  have hp : ofName? q.name = some p := ofName?_eq_some_iff.mpr h
  rw [ofName?_eq_some_iff.mpr rfl] at hp
  exact (Option.some.inj hp).symm

theorem Param.name_ne_style (p : Param) : p.name ≠ "style" := by cases p <;> decide

theorem Json.asName?_eq_some_iff {v : Json} {s : String} : v.asName? isNull = some s ↔ v.Names s := by
  unfold asName?
  split
  · simp [Names]
  · rename_i name w
    cases w <;> simp [Names, isNull]
  · rename_i hstr hobj
    refine iff_of_false (by simp) ?_
    rintro (rfl | rfl)
    · exact hstr s rfl
    · exact hobj s _ rfl

/-- A value is read by its name exactly if it has the name of something. -/
theorem Json.isSome_bind_iff {α : Type} {ofName? : String → Option α} {name : α → String}
    (h : ∀ {s a}, ofName? s = some a ↔ name a = s) (v : Json) :
    ((v.asName? isNull).bind ofName?).isSome ↔ ∃ a, v.Names (name a) := by
  simp [Option.isSome_iff_exists, Option.bind_eq_some_iff, asName?_eq_some_iff, h]

theorem Json.isSome_asFloat?_iff {v : Json} : v.asFloat?.isSome ↔ (∃ n, v = .int n) ∨ ∃ x, v = .float x := by
  cases v <;> simp [asFloat?]

theorem Json.isSome_asString?_iff {v : Json} : v.asString?.isSome ↔ ∃ s, v = .str s := by
  cases v <;> simp [asString?]

theorem Json.isSome_asNat?_iff {v : Json} : (v.asNat? 32).isSome ↔ ∃ n : ℕ, n < 2 ^ 32 ∧ v = .int n := by
  cases v with
  | int n =>
    have hlimit : ((1 <<< 32 - 1 : ℕ) : ℤ) = 2 ^ 32 - 1 := by decide
    simp only [asNat?, asInt?, Option.isSome_map, int.injEq, hlimit]
    constructor
    · intro h
      refine ⟨n.toNat, ?_⟩
      split at h
      · omega
      · cases h
    · rintro ⟨k, hk, rfl⟩
      rw [if_pos (by omega)]
      rfl
  | _ => simp [asNat?, asInt?]

theorem Params.isSome_asSwitch?_iff {v : Json} :
    (asSwitch? v).isSome ↔ (∃ b, v = .bool b) ∨ v = .int 0 ∨ v = .int 1 := by
  unfold asSwitch?
  split <;> simp_all

namespace Params

variable {ps ps' : Params} {p : Param} {v : Json}

/-- A value is taken for a parameter exactly if it has the type of the parameter. -/
theorem isSome_set?_iff : (ps.set? p v).isSome ↔ p.Takes v := by
  cases p <;> rw [set?, Option.isSome_map]
  case freq | phase | gain => exact isSome_asFloat?_iff
  case length => exact isSome_asNat?_iff
  case envelope => exact isSome_asString?_iff
  case phaseReset => exact isSome_asSwitch?_iff
  case idle => exact isSome_bind_iff IdleLevel.ofName?_eq_some_iff v
  case mode => exact isSome_bind_iff RunMode.ofName?_eq_some_iff v
  case source => exact isSome_bind_iff OutputSource.ofName?_eq_some_iff v

/-- A value that is taken defines its parameter and leaves the others as they are. -/
theorem isDefined_of_set? (h : ps.set? p v = some ps') (q : Param) : ps'.isDefined q ↔ ps.isDefined q ∨ q = p := by
  cases p <;> rw [set?, Option.map_eq_some_iff] at h <;> obtain ⟨x, -, rfl⟩ := h <;> cases q <;> simp [isDefined]

/-- What becomes of one member: its name is no parameter, or its value is taken, or it is the wrong one. -/
theorem setAll_cons (ps : Params) (name : String) (v : Json) (l : List (String × Json)) :
    ((∀ p : Param, p.name ≠ name) ∧ setAll ps ((name, v) :: l) = setAll ps l) ∨
    (∃ p : Param, p.name = name ∧ p.Takes v ∧ ∃ ps', ps.set? p v = some ps' ∧
      setAll ps ((name, v) :: l) = setAll ps' l) ∨
    (∃ p : Param, p.name = name ∧ ¬ p.Takes v ∧
      setAll ps ((name, v) :: l) = .error (.badParamValue p.name v.compact)) := by
  cases hname : Param.ofName? name with
  | none =>
    refine Or.inl ⟨fun p hp => ?_, by rw [setAll, hname]⟩
    rw [Param.ofName?_eq_some_iff.mpr hp] at hname
    cases hname
  | some p =>
    have hp := Param.ofName?_eq_some_iff.mp hname
    have htakes : (ps.set? p v).isSome ↔ p.Takes v := isSome_set?_iff
    cases hset : ps.set? p v with
    | none =>
      refine Or.inr (Or.inr ⟨p, hp, ?_, by simp only [setAll, hname, hset]⟩)
      rw [← htakes, hset]
      simp
    | some ps' =>
      refine Or.inr (Or.inl ⟨p, hp, ?_, ps', hset, by simp only [setAll, hname, hset]⟩)
      rw [← htakes, hset]
      rfl

variable {l : List (String × Json)}

theorem mem_cons_name_iff {q : Param} {w : Json} :
    (q.name, w) ∈ (p.name, v) :: l ↔ (q = p ∧ w = v) ∨ (q.name, w) ∈ l := by
  have hname : q.name = p.name ↔ q = p := ⟨Param.name_injective, congrArg Param.name⟩
  rw [List.mem_cons, Prod.mk.injEq, hname]

/-- All members are put in exactly if those that are parameters have values of their types. -/
theorem exists_setAll_iff : (∃ ps', setAll ps l = .ok ps') ↔ ∀ (p : Param) (v), (p.name, v) ∈ l → p.Takes v := by
  induction l generalizing ps with
  | nil => simp [setAll]
  | cons m l ih =>
    obtain ⟨name, v⟩ := m
    rcases setAll_cons ps name v l with ⟨hname, h⟩ | ⟨p, rfl, htakes, ps', -, h⟩ | ⟨p, rfl, htakes, h⟩
    · simp [h, ih, hname]
    · rw [h, ih]
      refine ⟨fun hall q w hmem => ?_, fun hall q w hmem => hall q w (List.mem_cons_of_mem _ hmem)⟩
      rcases mem_cons_name_iff.mp hmem with ⟨rfl, rfl⟩ | hmem
      · exact htakes
      · exact hall q w hmem
    · rw [h]
      exact iff_of_false (by simp) fun hall => htakes (hall p v (List.mem_cons_self ..))

/-- The parameters that are defined in the end: those that were, and those that are named. -/
theorem isDefined_of_setAll (h : setAll ps l = .ok ps') (q : Param) :
    ps'.isDefined q ↔ ps.isDefined q ∨ ∃ v, (q.name, v) ∈ l := by
  induction l generalizing ps with
  | nil =>
    cases h
    simp
  | cons m l ih =>
    obtain ⟨name, v⟩ := m
    rcases setAll_cons ps name v l with ⟨hname, heq⟩ | ⟨p, rfl, -, ps₁, hset, heq⟩ | ⟨p, -, -, heq⟩
    · rw [ih (heq ▸ h)]
      simp [hname]
    · rw [ih (heq ▸ h), isDefined_of_set? hset, or_assoc]
      simp only [mem_cons_name_iff, exists_or, exists_and_left, exists_eq, and_true]
    · rw [heq] at h
      cases h

/-- The first value of a wrong type is the one that is reported. -/
theorem setAll_eq_error_iff (hl : Sorted l) {e : Error} :
    setAll ps l = .error e ↔ ∃ (p : Param) (v : Json), (p.name, v) ∈ l ∧ ¬ p.Takes v ∧
      (∀ (q : Param) (w), q.name < p.name → (q.name, w) ∈ l → q.Takes w) ∧ e = .badParamValue p.name v.compact := by
  induction l generalizing ps with
  | nil => simp [setAll]
  | cons m l ih =>
    obtain ⟨name, v⟩ := m
    obtain ⟨hfirst, hrest⟩ := List.pairwise_cons.mp hl
    rcases setAll_cons ps name v l with ⟨hname, h⟩ | ⟨p, rfl, htakes, ps', -, h⟩ | ⟨p, rfl, htakes, h⟩
    · simp [h, ih hrest, hname]
    · -- the wrong values are those of the other members
      have hmem : ∀ (q : Param) (w : Json), (q.name, w) ∈ (p.name, v) :: l → ¬ q.Takes w → (q.name, w) ∈ l := by
        intro q w hmem hbad
        rcases mem_cons_name_iff.mp hmem with ⟨rfl, rfl⟩ | hmem
        · exact absurd htakes hbad
        · exact hmem
      rw [h, ih hrest]
      constructor
      · rintro ⟨q, w, hq, hbad, hbefore, rfl⟩
        refine ⟨q, w, List.mem_cons_of_mem _ hq, hbad, fun r x hr hx => ?_, rfl⟩
        by_contra hwrong
        exact hwrong (hbefore r x hr (hmem r x hx hwrong))
      · rintro ⟨q, w, hq, hbad, hbefore, rfl⟩
        exact ⟨q, w, hmem q w hq hbad, hbad, fun r x hr hx => hbefore r x hr (List.mem_cons_of_mem _ hx), rfl⟩
    · -- the other members come after the one that is reported
      rw [h]
      constructor
      · rintro ⟨⟩
        refine ⟨p, v, List.mem_cons_self .., htakes, fun q w hq hw => ?_, rfl⟩
        rcases mem_cons_name_iff.mp hw with ⟨rfl, -⟩ | hw
        · exact absurd hq (String.lt_irrefl _)
        · exact absurd (hfirst _ hw) (String.lt_asymm hq)
      · rintro ⟨q, w, hq, hbad, hbefore, rfl⟩
        rcases mem_cons_name_iff.mp hq with ⟨rfl, rfl⟩ | hq
        · rfl
        · exact absurd (hbefore p v (hfirst _ hq) (List.mem_cons_self ..)) htakes

/-! ### What is reported -/

/-- Every parameter that has a value has one of its type. -/
def Typed (get : String → Option Json) : Prop := ∀ (p : Param) (v : Json), get p.name = some v → p.Takes v

/-- The object has a member of a name that means nothing. -/
def Unknown (get : String → Option Json) (name : String) : Prop :=
  name ≠ "style" ∧ (get name).isSome ∧ ∀ p : Param, p.name ≠ name

/-- An object from which a pulse of a style can be made. -/
structure Accepted (get : String → Option Json) (style : Style) : Prop where
  named : get "style" = some (.str style.name)
  known : ∀ name v, name ≠ "style" → get name = some v → ∃ p : Param, p.name = name ∧ p.Takes v
  required : ∀ p ∈ style.required, (get p.name).isSome
  taken : ∀ p : Param, (get p.name).isSome → p ∈ style.required ∨ p ∈ style.optional

/-- What is reported of an object. Each cause comes after those before it: one is reported only if
there are none of the earlier ones. -/
inductive Rejected (get : String → Option Json) : Error → Prop where
  /-- The object has no style. -/
  | noStyle (h : get "style" = none) : Rejected get (.missingParams "pulse" ["style"])
  /-- The style is not a text. -/
  | styleType {v : Json} (h : get "style" = some v) (htype : ∀ s, v ≠ .str s) : Rejected get (.unknownStyle v.compact)
  /-- The style is not the name of one. -/
  | styleName {s : String} (h : get "style" = some (.str s)) (hname : ∀ style : Style, style.name ≠ s) :
      Rejected get (.unknownStyle s)
  /-- The first parameter in the order of the names that has a value of a wrong type. -/
  | value {style : Style} {p : Param} {v : Json} (hstyle : get "style" = some (.str style.name))
      (hv : get p.name = some v) (hwrong : ¬ p.Takes v)
      (hfirst : ∀ (q : Param) (w : Json), q.name < p.name → get q.name = some w → q.Takes w) :
      Rejected get (.badParamValue p.name v.compact)
  /-- All names that mean nothing, in order. -/
  | unknown {style : Style} {names : List String} (hstyle : get "style" = some (.str style.name)) (htyped : Typed get)
      (hnames : ∀ name, name ∈ names ↔ Unknown get name) (horder : names.Pairwise (· < ·)) (hne : names ≠ []) :
      Rejected get (.unsupportedParams style.name names)
  /-- All parameters that the style requires and that are not there. -/
  | missing {style : Style} (hstyle : get "style" = some (.str style.name)) (htyped : Typed get)
      (hknown : ∀ name, ¬ Unknown get name) (hmissing : ∃ p ∈ style.required, get p.name = none) :
      Rejected get (.missingParams style.name ((style.required.filter fun p => (get p.name).isNone).map Param.name))
  /-- All parameters that are there and that the style does not take. -/
  | foreign {style : Style} (hstyle : get "style" = some (.str style.name)) (htyped : Typed get)
      (hknown : ∀ name, ¬ Unknown get name) (hrequired : ∀ p ∈ style.required, (get p.name).isSome)
      (hforeign : ∃ p : Param, (get p.name).isSome ∧ p ∉ style.required ∧ p ∉ style.optional) :
      Rejected get (.unsupportedParams style.name
        ((Param.all.filter fun p => (get p.name).isSome ∧ p ∉ style.required ∧ p ∉ style.optional).map Param.name))

/-! ### The style -/

theorem styleOf_eq_ok_iff {style : Style} : styleOf l = .ok style ↔ l.lookup "style" = some (.str style.name) := by
  unfold styleOf
  cases l.lookup "style" with
  | none => simp
  | some v =>
    cases v with
    | str s => simp [Style.ofName_eq_ok_iff, eq_comm (a := s)]
    | _ => simp

theorem styleOf_eq_error_iff {e : Error} : styleOf l = .error e ↔
    (l.lookup "style" = none ∧ e = .missingParams "pulse" ["style"]) ∨
    (∃ v, l.lookup "style" = some v ∧ (∀ s, v ≠ .str s) ∧ e = .unknownStyle v.compact) ∨
    ∃ s, l.lookup "style" = some (.str s) ∧ (∀ style : Style, style.name ≠ s) ∧ e = .unknownStyle s := by
  unfold styleOf
  cases l.lookup "style" with
  | none => simp [eq_comm]
  | some v =>
    cases v with
    | str s => simp [Style.ofName_eq_error_iff]
    | _ => simp [eq_comm]

/-! ### The other members -/

variable {members : List (String × Json)}

/-- The members other than the style, in the order of their names. -/
def others (members : List (String × Json)) : List (String × Json) :=
  (sortMembers (canonicalMembers members)).filter (·.1 ≠ "style")

/-- The names of members that mean nothing. -/
def unknownNames (members : List (String × Json)) : List String :=
  ((others members).map (·.1)).filter fun name => (Param.ofName? name).isNone

theorem sorted_others (members : List (String × Json)) : Sorted (others members) :=
  (sorted_sortMembers _).filter _

theorem mem_others_iff {name : String} :
    (name, v) ∈ others members ↔ valueOf? members name = some v ∧ name ≠ "style" := by
  rw [others, List.mem_filter, mem_sorted_iff, decide_eq_true_eq]

theorem mem_others_name_iff : (p.name, v) ∈ others members ↔ valueOf? members p.name = some v := by
  rw [mem_others_iff, and_iff_left p.name_ne_style]

theorem pairwise_unknownNames (members : List (String × Json)) : (unknownNames members).Pairwise (· < ·) :=
  (List.pairwise_map.mpr (sorted_others members)).filter _

theorem mem_unknownNames_iff {name : String} : name ∈ unknownNames members ↔ Unknown (valueOf? members) name := by
  have hname : name ∈ (others members).map (·.1) ↔ (valueOf? members name).isSome ∧ name ≠ "style" := by
    simp [mem_others_iff, Option.isSome_iff_exists]
  have hnone : (Param.ofName? name).isNone ↔ ∀ p : Param, p.name ≠ name := by
    simp [Option.eq_none_iff_forall_ne_some, Param.ofName?_eq_some_iff]
  rw [unknownNames, List.mem_filter, hname, hnone, Unknown]
  tauto

/-- The values of parameters are put in. -/
theorem exists_setAll_others_iff : (∃ ps', setAll {} (others members) = .ok ps') ↔ Typed (valueOf? members) := by
  simp only [exists_setAll_iff, mem_others_name_iff, Typed]

theorem setAll_others_eq_error_iff {e : Error} : setAll {} (others members) = .error e ↔
    ∃ (p : Param) (v : Json), valueOf? members p.name = some v ∧ ¬ p.Takes v ∧
      (∀ (q : Param) (w : Json), q.name < p.name → valueOf? members q.name = some w → q.Takes w) ∧
      e = .badParamValue p.name v.compact := by
  simp only [setAll_eq_error_iff (sorted_others members), mem_others_name_iff]

theorem isDefined_of_others (h : setAll {} (others members) = .ok ps) :
    ps.isDefined = fun p => (valueOf? members p.name).isSome := by
  funext p
  have hempty : ¬ ({} : Params).isDefined p := by cases p <;> simp [isDefined]
  rw [Bool.eq_iff_iff, isDefined_of_setAll h, or_iff_right hempty, Option.isSome_iff_exists]
  simp only [mem_others_name_iff]

/-! ### The check -/

theorem ofMembers_eq (members : List (String × Json)) :
    ofMembers members = (styleOf (sortMembers (canonicalMembers members)) >>= fun style =>
      setAll {} (others members) >>= fun ps =>
        if (unknownNames members).isEmpty then .ok (style, ps)
        else .error (.unsupportedParams style.name (unknownNames members))) := rfl

theorem styleOf_sorted_eq_ok_iff {style : Style} :
    styleOf (sortMembers (canonicalMembers members)) = .ok style ↔
      valueOf? members "style" = some (.str style.name) := by
  rw [styleOf_eq_ok_iff, lookup_sorted]

theorem ofMembers_eq_ok_iff {style : Style} :
    ofMembers members = .ok (style, ps) ↔ valueOf? members "style" = some (.str style.name) ∧
      setAll {} (others members) = .ok ps ∧ ∀ name, ¬ Unknown (valueOf? members) name := by
  have hempty : (unknownNames members).isEmpty ↔ ∀ name, ¬ Unknown (valueOf? members) name := by
    simp only [← mem_unknownNames_iff, List.isEmpty_iff, List.eq_nil_iff_forall_not_mem]
  rw [ofMembers_eq, bind_eq_ok_iff, ← styleOf_sorted_eq_ok_iff, ← hempty]
  simp only [bind_eq_ok_iff]
  constructor
  · rintro ⟨style', hstyle, ps', hps, h⟩
    split at h
    · rename_i hnone
      cases h
      exact ⟨hstyle, hps, hnone⟩
    · cases h
  · rintro ⟨hstyle, hps, hnone⟩
    exact ⟨style, hstyle, ps, hps, if_pos hnone⟩

/-- What is missing is reported before what the style does not take. -/
theorem validate_eq_error_iff {style : Style} {e : Error} : ps.validate style = .error e ↔
    ((∃ p ∈ style.required, ¬ ps.isDefined p) ∧
      e = .missingParams style.name ((style.required.filter fun p => !ps.isDefined p).map Param.name)) ∨
    ((∀ p ∈ style.required, ps.isDefined p) ∧
      (∃ p, ps.isDefined p ∧ p ∉ style.required ∧ p ∉ style.optional) ∧
      e = .unsupportedParams style.name
        ((ps.defined.filter fun p => p ∉ style.required ∧ p ∉ style.optional).map Param.name)) := by
  have hmissing : (∃ p ∈ style.required, ¬ ps.isDefined p) ↔
      (style.required.filter fun p => !ps.isDefined p) ≠ [] := by
    simp
  have hforeign : (∃ p, ps.isDefined p ∧ p ∉ style.required ∧ p ∉ style.optional) ↔
      (ps.defined.filter fun p => p ∉ style.required ∧ p ∉ style.optional) ≠ [] := by
    simp only [ne_eq, foreign_eq_nil_iff, not_forall, not_or, exists_prop]
  rw [hmissing, hforeign, ← missing_eq_nil_iff]
  unfold validate
  dsimp only
  cases style.required.filter fun p => !ps.isDefined p with
  | cons => simp [eq_comm (a := e)]
  | nil => cases ps.defined.filter fun p => p ∉ style.required ∧ p ∉ style.optional <;> simp [eq_comm (a := e)]

/-- The names that mean nothing are the only ones in order. -/
theorem eq_unknownNames {names : List String} (hnames : ∀ name, name ∈ names ↔ Unknown (valueOf? members) name)
    (horder : names.Pairwise (· < ·)) : names = unknownNames members := by
  refine List.Pairwise.eq_of_mem_iff horder (pairwise_unknownNames members) fun name => ?_
  rw [hnames, mem_unknownNames_iff]

/-- Reading an object fails for its style, for a value, or for names that mean nothing. -/
theorem ofMembers_eq_error_iff {e : Error} : ofMembers members = .error e ↔
    styleOf (sortMembers (canonicalMembers members)) = .error e ∨
    ∃ style : Style, valueOf? members "style" = some (.str style.name) ∧
      (setAll {} (others members) = .error e ∨
        Typed (valueOf? members) ∧ unknownNames members ≠ [] ∧
          e = .unsupportedParams style.name (unknownNames members)) := by
  simp only [ofMembers_eq, bind_eq_error_iff, styleOf_sorted_eq_ok_iff, ← exists_setAll_others_iff]
  refine or_congr_right (exists_congr fun style => and_congr_right fun _ => or_congr_right ?_)
  constructor
  · rintro ⟨ps, hps, h⟩
    split at h
    · cases h
    · rename_i hne
      exact ⟨⟨ps, hps⟩, by simpa using hne, (Except.error.inj h).symm⟩
  · rintro ⟨⟨ps, hps⟩, hne, rfl⟩
    exact ⟨ps, hps, if_neg (by simpa using hne)⟩

/-- The check looks at the parameters that the object names. -/
theorem validate_others_eq_error_iff (h : setAll {} (others members) = .ok ps) {style : Style} {e : Error} :
    ps.validate style = .error e ↔
      ((∃ p ∈ style.required, valueOf? members p.name = none) ∧ e = .missingParams style.name
        ((style.required.filter fun p => (valueOf? members p.name).isNone).map Param.name)) ∨
      ((∀ p ∈ style.required, (valueOf? members p.name).isSome) ∧
        (∃ p : Param, (valueOf? members p.name).isSome ∧ p ∉ style.required ∧ p ∉ style.optional) ∧
        e = .unsupportedParams style.name ((Param.all.filter fun p => (valueOf? members p.name).isSome ∧
          p ∉ style.required ∧ p ∉ style.optional).map Param.name)) := by
  have hforeign : ∀ p : Param, (decide (p ∉ style.required ∧ p ∉ style.optional) && (valueOf? members p.name).isSome) =
      decide ((valueOf? members p.name).isSome ∧ p ∉ style.required ∧ p ∉ style.optional) := by
    intro p
    rw [Bool.and_comm]
    simp only [Bool.decide_and, Bool.decide_eq_true]
  rw [validate_eq_error_iff, defined, isDefined_of_others h, List.filter_filter]
  simp only [Option.not_isSome, Bool.not_eq_true, Option.isSome_eq_false_iff, Option.isNone_iff_eq_none, hforeign]

/-- What comes out of reading an object and checking what was read. -/
theorem check_eq_error_iff {e : Error} :
    (ofMembers members >>= fun r => r.2.validate r.1) = .error e ↔ Rejected (valueOf? members) e := by
  rw [bind_eq_error_iff, ofMembers_eq_error_iff, styleOf_eq_error_iff, lookup_sorted]
  constructor
  · rintro (((⟨h, rfl⟩ | ⟨v, h, htype, rfl⟩ | ⟨s, h, hname, rfl⟩) | ⟨style, hstyle, h | ⟨htyped, hne, rfl⟩⟩) |
      ⟨r, h, hcheck⟩)
    · exact .noStyle h
    · exact .styleType h htype
    · exact .styleName h hname
    · obtain ⟨p, v, hv, hwrong, hfirst, rfl⟩ := setAll_others_eq_error_iff.mp h
      exact .value hstyle hv hwrong hfirst
    · exact .unknown hstyle htyped (fun _ => mem_unknownNames_iff) (pairwise_unknownNames members) hne
    · obtain ⟨hstyle, hps, hknown⟩ := ofMembers_eq_ok_iff.mp h
      have htyped := exists_setAll_others_iff.mp ⟨_, hps⟩
      rcases (validate_others_eq_error_iff hps).mp hcheck with ⟨hmissing, rfl⟩ | ⟨hrequired, hforeign, rfl⟩
      · exact .missing hstyle htyped hknown hmissing
      · exact .foreign hstyle htyped hknown hrequired hforeign
  · intro h
    cases h with
    | noStyle h => exact Or.inl (Or.inl (Or.inl ⟨h, rfl⟩))
    | styleType h htype => exact Or.inl (Or.inl (Or.inr (Or.inl ⟨_, h, htype, rfl⟩)))
    | styleName h hname => exact Or.inl (Or.inl (Or.inr (Or.inr ⟨_, h, hname, rfl⟩)))
    | value hstyle hv hwrong hfirst =>
      exact Or.inl (Or.inr ⟨_, hstyle, Or.inl (setAll_others_eq_error_iff.mpr ⟨_, _, hv, hwrong, hfirst, rfl⟩)⟩)
    | unknown hstyle htyped hnames horder hne =>
      obtain rfl := eq_unknownNames hnames horder
      exact Or.inl (Or.inr ⟨_, hstyle, Or.inr ⟨htyped, hne, rfl⟩⟩)
    | missing hstyle htyped hknown hmissing =>
      obtain ⟨ps, hps⟩ := exists_setAll_others_iff.mpr htyped
      exact Or.inr ⟨_, ofMembers_eq_ok_iff.mpr ⟨hstyle, hps, hknown⟩,
        (validate_others_eq_error_iff hps).mpr (Or.inl ⟨hmissing, rfl⟩)⟩
    | foreign hstyle htyped hknown hrequired hforeign =>
      obtain ⟨ps, hps⟩ := exists_setAll_others_iff.mpr htyped
      exact Or.inr ⟨_, ofMembers_eq_ok_iff.mpr ⟨hstyle, hps, hknown⟩,
        (validate_others_eq_error_iff hps).mpr (Or.inr ⟨hrequired, hforeign, rfl⟩)⟩

/-- An object is accepted if nothing of it is ill-typed, unknown, missing or foreign. -/
theorem accepted_iff {get : String → Option Json} {style : Style} :
    Accepted get style ↔ get "style" = some (.str style.name) ∧ Typed get ∧ (∀ name, ¬ Unknown get name) ∧
      (∀ p ∈ style.required, (get p.name).isSome) ∧
      ∀ p : Param, (get p.name).isSome → p ∈ style.required ∨ p ∈ style.optional := by
  constructor
  · rintro ⟨hstyle, hknown, hrequired, htaken⟩
    refine ⟨hstyle, fun p v hv => ?_, ?_, hrequired, htaken⟩
    · obtain ⟨q, hq, htakes⟩ := hknown p.name v p.name_ne_style hv
      exact Param.name_injective hq ▸ htakes
    · rintro name ⟨hne, hsome, hno⟩
      obtain ⟨v, hv⟩ := Option.isSome_iff_exists.mp hsome
      obtain ⟨p, hp, -⟩ := hknown name v hne hv
      exact hno p hp
  · rintro ⟨hstyle, htyped, hknown, hrequired, htaken⟩
    refine ⟨hstyle, fun name v hne hv => ?_, hrequired, htaken⟩
    by_contra hno
    refine hknown name ⟨hne, by simp [hv], ?_⟩
    rintro p rfl
    exact hno ⟨p, rfl, htyped p v hv⟩

theorem exists_check_iff {style : Style} :
    (∃ ps, ofMembers members = .ok (style, ps) ∧ ps.validate style = .ok ()) ↔ Accepted (valueOf? members) style := by
  rw [accepted_iff]
  constructor
  · rintro ⟨ps, h, hcheck⟩
    obtain ⟨hstyle, hps, hknown⟩ := ofMembers_eq_ok_iff.mp h
    rw [validate_eq_ok_iff, isDefined_of_others hps] at hcheck
    exact ⟨hstyle, exists_setAll_others_iff.mp ⟨ps, hps⟩, hknown, hcheck⟩
  · rintro ⟨hstyle, htyped, hknown, hcheck⟩
    obtain ⟨ps, hps⟩ := exists_setAll_others_iff.mpr htyped
    refine ⟨ps, ofMembers_eq_ok_iff.mpr ⟨hstyle, hps, hknown⟩, ?_⟩
    rwa [validate_eq_ok_iff, isDefined_of_others hps]

/-- Every name that means something is that of the style or of a parameter that is defined. -/
theorem mem_defined_iff {style : Style} (h : ofMembers members = .ok (style, ps)) {name : String} :
    name ∈ ps.defined.map Param.name ↔ name ≠ "style" ∧ (valueOf? members name).isSome := by
  obtain ⟨-, hps, hknown⟩ := ofMembers_eq_ok_iff.mp h
  rw [defined, isDefined_of_others hps, List.mem_map]
  simp only [List.mem_filter, Param.mem_all, true_and]
  constructor
  · rintro ⟨p, hp, rfl⟩
    exact ⟨p.name_ne_style, hp⟩
  · rintro ⟨hne, hsome⟩
    by_contra hno
    refine hknown name ⟨hne, hsome, ?_⟩
    rintro p rfl
    exact hno ⟨p, hsome, rfl⟩

end Params

/-- **Parameters are taken exactly.** An object is read and passes the check exactly if its style is
the name of one, every other name is that of a parameter with a value of its type, all that the style
requires are there, and it takes the others. Then the parameters that are defined are the names of the
object other than the style. Otherwise one cause is reported, with all names that it concerns: the
style, then the first value of a wrong type, then names that mean nothing, then what is missing, and
last what the style does not take. -/
theorem parameters_accepted_exactly (members : List (String × Json)) :
    (∀ style, (∃ ps, Params.ofMembers members = .ok (style, ps) ∧ ps.validate style = .ok ()) ↔
      Params.Accepted (valueOf? members) style) ∧
    (∀ style ps, Params.ofMembers members = .ok (style, ps) → ps.validate style = .ok () →
      ∀ name, name ∈ ps.defined.map Param.name ↔ name ≠ "style" ∧ (valueOf? members name).isSome) ∧
    ∀ e, (Params.ofMembers members >>= fun r => r.2.validate r.1) = .error e ↔
      Params.Rejected (valueOf? members) e :=
  ⟨fun _ => Params.exists_check_iff, fun _ _ h _ _ => Params.mem_defined_iff h, fun _ => Params.check_eq_error_iff⟩

/-- An object with a name that means nothing, a gain whose first value is wrong, a length that is a
text, no phase, and a source that its style does not take. -/
def crowdedMembers : List (String × Json) :=
  [("zzz", .null), ("gain", .str "loud"), ("style", .str "const"), ("outsel", .str "dds"), ("length", .str "3"),
    ("freq", .int 5), ("gain", .int 1)]

/-- Of all that is wrong, the length is reported. -/
theorem parameters_accepted_exactly_crowded :
    (Params.ofMembers crowdedMembers >>= fun r => r.2.validate r.1) = .error (.badParamValue "length" "\"3\"") := by
  have hstyle : valueOf? crowdedMembers "style" = some (.str Style.const.name) := rfl
  have hlength : valueOf? crowdedMembers Param.length.name = some (.str "3") := rfl
  refine ((parameters_accepted_exactly crowdedMembers).2.2 _).mpr (.value hstyle hlength ?_ ?_)
  · rintro ⟨n, -, h⟩
    cases h
  · intro q w hlt hw
    cases q with
    | freq => exact Or.inl ⟨5, (Option.some.inj hw).symm⟩
    | gain => exact Or.inl ⟨1, (Option.some.inj hw).symm⟩
    | envelope => cases hw
    | _ => exact absurd hlt (by decide)

end PulseAsm
