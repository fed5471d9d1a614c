import PulseAsm.Program.Builder
import PulseAsm.Proofs.Outcome
import PulseAsm.Proofs.Program.Build
import Mathlib.Algebra.Ring.Nat

/-!
# Channels are scheduled apart

The scheduler tells three cases apart: an output in its turn, one that is asked for
too early, and one that is asked for later. In each of them the channel goes on from
the later of its timestamp and the time of the output (`Output.advance`), if 64 bits
reach that far, and stays where it is otherwise (`Output.move`). No other channel is
touched (`Timeline.get?_reserve`). So after any sequence of calls, those that fail
included, a timestamp is the fold of `Output.move` over the calls on its own channel
(`Timeline.get?_reserveAll`).

Timestamps only grow, so all calls of a sequence succeed exactly if their channels are
there and the fold of `Output.advance` has 64 bits in the end (`Timeline.meets_iff`).
-/

namespace PulseAsm

/-- An output that the scheduler is asked for. -/
structure Output where
  /-- The channel. -/
  channel : Channel
  /-- When it should happen. -/
  time : Time
  /-- How long the channel is taken. -/
  duration : ℕ
  deriving DecidableEq

namespace Output

/-- When the output happens on a channel with timestamp `ts`. -/
def start (o : Output) (ts : ℕ) : ℕ :=
  match o.time with
  | .auto => ts
  | .fixed t => t

/-- The timestamp of a channel after the output, from the one before it. -/
def advance (o : Output) (ts : ℕ) : ℕ := max ts (o.start ts) + o.duration

theorem le_advance (o : Output) (ts : ℕ) : ts ≤ o.advance ts := Nat.le_add_right_of_le (Nat.le_max_left _ _)

theorem le_foldl_advance (os : List Output) (ts : ℕ) : ts ≤ os.foldl (fun ts o => o.advance ts) ts := by
  induction os generalizing ts with
  | nil => exact Nat.le_refl ts
  | cons o os ih => exact Nat.le_trans (o.le_advance ts) (ih _)

/-- The timestamp of a channel after a call for the output, which fails if times do not
reach that far. -/
def move (o : Output) (ts : ℕ) : ℕ := if o.advance ts < 2 ^ 64 then o.advance ts else ts

theorem move_of_lt {o : Output} {ts : ℕ} (h : o.advance ts < 2 ^ 64) : o.move ts = o.advance ts := if_pos h

theorem move_of_le {o : Output} {ts : ℕ} (h : 2 ^ 64 ≤ o.advance ts) : o.move ts = ts := if_neg (Nat.not_lt.mpr h)

theorem le_move (o : Output) (ts : ℕ) : ts ≤ o.move ts := by
  unfold move
  split
  · exact o.le_advance ts
  · exact Nat.le_refl ts

/-- As long as times reach far enough, no call fails. -/
theorem foldl_move {os : List Output} {ts : ℕ} (h : os.foldl (fun ts o => o.advance ts) ts < 2 ^ 64) :
    os.foldl (fun ts o => o.move ts) ts = os.foldl (fun ts o => o.advance ts) ts := by
  induction os generalizing ts with
  | nil => rfl
  | cons o os ih =>
    rw [List.foldl_cons, List.foldl_cons, move_of_lt (Nat.lt_of_le_of_lt (le_foldl_advance os _) h)]
    exact ih h

theorem foldl_advance_auto {os : List Output} (h : ∀ o ∈ os, o.time = .auto) (ts : ℕ) :
    os.foldl (fun ts o => o.advance ts) ts = ts + (os.map (·.duration)).sum := by
  induction os generalizing ts with
  | nil => simp
  | cons o os ih =>
    rw [List.forall_mem_cons] at h
    have hadvance : o.advance ts = ts + o.duration := by simp [advance, start, h.1]
    rw [List.foldl_cons, ih h.2, hadvance, List.map_cons, List.sum_cons, Nat.add_assoc]

end Output

theorem addTime_eq_ok_iff {t cycles n : ℕ} : addTime t cycles = .ok n ↔ t + cycles < 2 ^ 64 ∧ n = t + cycles := by
  unfold addTime
  by_cases h : t + cycles < timeLimit
  · rw [if_pos h, Except.ok.injEq]
    exact ⟨fun hn => ⟨h, hn.symm⟩, fun hn => hn.2.symm⟩
  · rw [if_neg h]
    exact ⟨fun hn => (nomatch hn), fun hn => absurd hn.1 h⟩

namespace Timeline

variable {tl tl' : Timeline}

/-! ### One timestamp at a time -/

/-- A timeline is known by the timestamps of its channels. -/
theorem ext_get? (h : ∀ ch, tl.get? ch = tl'.get? ch) : tl = tl' := by
  obtain ⟨gens, readouts⟩ := tl
  obtain ⟨gens', readouts'⟩ := tl'
  have hinj : Function.Injective UInt64.toNat := fun _ _ => UInt64.toNat_inj.mp
  have hgens : gens = gens' := List.ext_getElem? fun i => Option.map_injective hinj (h (.gen i))
  have hreadouts : readouts = readouts' := List.ext_getElem? fun i => Option.map_injective hinj (h (.readout i))
  rw [hgens, hreadouts]

theorem get?_lt {ch : Channel} {ts : ℕ} (h : tl.get? ch = some ts) : ts < 2 ^ 64 := by
  cases ch with
  | gen i =>
    obtain ⟨t, -, rfl⟩ := Option.map_eq_some_iff.mp h
    exact t.toNat_lt
  | readout i =>
    obtain ⟨t, -, rfl⟩ := Option.map_eq_some_iff.mp h
    exact t.toNat_lt

theorem get?_set (tl : Timeline) (ch ch' : Channel) (t : UInt64) :
    (tl.set ch t).get? ch' = (tl.get? ch').map fun ts => if ch = ch' then t.toNat else ts := by
  have hlist : ∀ (l : List UInt64) (i j : ℕ),
      (l.set i t)[j]?.map UInt64.toNat = (l[j]?.map UInt64.toNat).map fun ts => if i = j then t.toNat else ts := by
    intro l i j
    by_cases hij : i = j
    · subst hij
      by_cases hi : i < l.length <;> simp [hi]
    · simp [hij, Function.comp_def]
  cases ch with
  | gen i =>
    cases ch' with
    | gen j => simpa [set, get?] using hlist tl.gens i j
    | readout j => simp [set, get?, Function.comp_def]
  | readout i =>
    cases ch' with
    | gen j => simp [set, get?, Function.comp_def]
    | readout j => simpa [set, get?] using hlist tl.readouts i j

/-! ### The scheduler -/

/-- The three cases of the scheduler come to the same: the channel goes on from the
later of its timestamp and the time of the output. -/
theorem schedule_of_get?_eq_some {o : Output} {ts : ℕ} (h : tl.get? o.channel = some ts) :
    tl.schedule o.channel o.time o.duration =
      (tl.advance o.channel (max ts (o.start ts)) o.duration).map (o.start ts, ·) := by
  simp only [schedule, h, Output.start]
  cases o.time with
  | auto => simp
  | fixed t =>
    by_cases ht : t < ts
    · simp [ht, Nat.max_eq_left (Nat.le_of_lt ht)]
    · simp [ht, Nat.max_eq_right (Nat.le_of_not_lt ht)]

theorem schedule_of_lt {o : Output} {ts : ℕ} (h : tl.get? o.channel = some ts) (hlt : o.advance ts < 2 ^ 64) :
    tl.schedule o.channel o.time o.duration = .ok (o.start ts, tl.set o.channel (.ofNat (o.advance ts))) := by
  have hsum : addTime (max ts (o.start ts)) o.duration = .ok (o.advance ts) := addTime_eq_ok_iff.mpr ⟨hlt, rfl⟩
  rw [schedule_of_get?_eq_some h, advance, hsum]
  rfl

/-- There is no going on where times end. -/
theorem schedule_of_le {o : Output} {ts : ℕ} (h : tl.get? o.channel = some ts) (hle : 2 ^ 64 ≤ o.advance ts) :
    tl.schedule o.channel o.time o.duration = .error .timeOverflow := by
  have hsum : addTime (max ts (o.start ts)) o.duration = .error .timeOverflow := if_neg (Nat.not_lt.mpr hle)
  rw [schedule_of_get?_eq_some h, advance, hsum]
  rfl

theorem schedule_of_get?_eq_none {o : Output} (h : tl.get? o.channel = none) :
    tl.schedule o.channel o.time o.duration = .error (missing o.channel) := by
  simp only [schedule, h]

/-- The timeline after a call of the scheduler. A call that fails leaves it alone. -/
def reserve (tl : Timeline) (o : Output) : Timeline :=
  match tl.schedule o.channel o.time o.duration with
  | .ok r => r.2
  | .error _ => tl

/-- The timeline after any sequence of calls, those that fail included. -/
def reserveAll (tl : Timeline) (os : List Output) : Timeline := os.foldl reserve tl

/-- What a call of the scheduler returns: the time of the output. -/
def outcome (tl : Timeline) (o : Output) : Except Error ℕ :=
  (tl.schedule o.channel o.time o.duration).map Prod.fst

/-- A call succeeds if its channel is there and times reach far enough. -/
theorem outcome_eq_ok_iff {o : Output} {t : ℕ} :
    tl.outcome o = .ok t ↔ ∃ ts, tl.get? o.channel = some ts ∧ o.advance ts < 2 ^ 64 ∧ o.start ts = t := by
  unfold outcome
  cases h : tl.get? o.channel with
  | none => simp [schedule_of_get?_eq_none h, Except.map]
  | some ts =>
    by_cases hlt : o.advance ts < 2 ^ 64
    · simp only [schedule_of_lt h hlt, Except.map, Except.ok.injEq, Option.some.injEq, exists_eq_left', hlt, true_and]
    · simp only [schedule_of_le h (Nat.le_of_not_lt hlt), Except.map, Option.some.injEq, exists_eq_left', hlt,
        false_and, reduceCtorEq]

/-- A call that fails leaves the timeline alone. -/
theorem reserve_of_outcome_eq_error {o : Output} {e : Error} (h : tl.outcome o = .error e) : tl.reserve o = tl := by
  unfold outcome at h
  unfold reserve
  cases hs : tl.schedule o.channel o.time o.duration with
  | error e => rfl
  | ok r =>
    rw [hs] at h
    cases h

theorem outcome_of_get?_eq_none {o : Output} (h : tl.get? o.channel = none) :
    tl.outcome o = .error (missing o.channel) := by
  rw [outcome, schedule_of_get?_eq_none h]
  rfl

/-- A call that would take the channel past the last time fails. -/
theorem outcome_of_le_advance {o : Output} {ts : ℕ} (h : tl.get? o.channel = some ts) (hle : 2 ^ 64 ≤ o.advance ts) :
    tl.outcome o = .error .timeOverflow := by
  rw [outcome, schedule_of_le h hle]
  rfl

/-- A call moves its own channel and no other. -/
theorem get?_reserve (tl : Timeline) (o : Output) (ch : Channel) :
    (tl.reserve o).get? ch = (tl.get? ch).map fun ts => if o.channel = ch then o.move ts else ts := by
  cases h : tl.get? o.channel with
  | none =>
    rw [reserve_of_outcome_eq_error (outcome_of_get?_eq_none h)]
    by_cases hch : o.channel = ch
    · rw [← hch, h]
      rfl
    · simp [hch]
  | some ts =>
    by_cases hlt : o.advance ts < 2 ^ 64
    · have hback : (UInt64.ofNat (o.advance ts)).toNat = o.advance ts := UInt64.toNat_ofNat_of_lt' hlt
      simp only [reserve, schedule_of_lt h hlt, get?_set, hback]
      by_cases hch : o.channel = ch
      · rw [← hch, h]
        simp [Output.move_of_lt hlt]
      · simp [hch]
    · have hle := Nat.le_of_not_lt hlt
      rw [reserve_of_outcome_eq_error (outcome_of_le_advance h hle)]
      by_cases hch : o.channel = ch
      · rw [← hch, h]
        simp [Output.move_of_le hle]
      · simp [hch]

/-- What a call returns depends on the timestamp of its channel alone. -/
theorem outcome_congr {o : Output} (h : tl.get? o.channel = tl'.get? o.channel) : tl.outcome o = tl'.outcome o := by
  cases hts : tl.get? o.channel with
  | none => rw [outcome_of_get?_eq_none hts, outcome_of_get?_eq_none (h ▸ hts)]
  | some ts =>
    by_cases hlt : o.advance ts < 2 ^ 64
    · rw [outcome, outcome, schedule_of_lt hts hlt, schedule_of_lt (h ▸ hts) hlt]
      rfl
    · have hle := Nat.le_of_not_lt hlt
      rw [outcome_of_le_advance hts hle, outcome_of_le_advance (h ▸ hts) hle]

/-! ### Sequences of calls -/

theorem reserveAll_concat (tl : Timeline) (os : List Output) (o : Output) :
    tl.reserveAll (os ++ [o]) = (tl.reserveAll os).reserve o := List.foldl_append

/-- A timestamp is the fold over the calls on its channel. -/
theorem get?_reserveAll (tl : Timeline) (os : List Output) (ch : Channel) :
    (tl.reserveAll os).get? ch =
      (tl.get? ch).map fun ts => (os.filter (·.channel = ch)).foldl (fun ts o => o.move ts) ts := by
  induction os generalizing tl with
  | nil => simp [reserveAll]
  | cons o os ih =>
    have hcons : tl.reserveAll (o :: os) = (tl.reserve o).reserveAll os := rfl
    rw [hcons, ih, get?_reserve, Option.map_map]
    by_cases hch : o.channel = ch
    · simp [hch, Function.comp_def]
    · simp [hch, Function.comp_def]

/-- A timestamp is where the calls on its channel take it, if times reach far enough. -/
theorem get?_reserveAll_of_lt {os : List Output} {ch : Channel}
    (h : ∀ ts ∈ tl.get? ch, (os.filter (·.channel = ch)).foldl (fun ts o => o.advance ts) ts < 2 ^ 64) :
    (tl.reserveAll os).get? ch =
      (tl.get? ch).map fun ts => (os.filter (·.channel = ch)).foldl (fun ts o => o.advance ts) ts := by
  rw [get?_reserveAll]
  cases hts : tl.get? ch with
  | none => rfl
  | some ts =>
    rw [Option.map_some, Option.map_some, Output.foldl_move (h ts hts)]

/-- Calls that are the same on each channel lead to the same timeline, in whatever
order they are made on different channels. -/
theorem reserveAll_congr {os os' : List Output}
    (h : ∀ ch, os.filter (·.channel = ch) = os'.filter (·.channel = ch)) : tl.reserveAll os = tl.reserveAll os' := by
  apply ext_get?
  intro ch
  rw [get?_reserveAll, get?_reserveAll, h]

theorem reserveAll_swap {a b : Output} (h : a.channel ≠ b.channel) (pre post : List Output) :
    tl.reserveAll (pre ++ b :: a :: post) = tl.reserveAll (pre ++ a :: b :: post) := by
  apply reserveAll_congr
  intro ch
  have hnot : ¬(a.channel = ch ∧ b.channel = ch) := fun hab => h (hab.1.trans hab.2.symm)
  by_cases ha : a.channel = ch <;> by_cases hb : b.channel = ch <;> simp_all

/-- A call on another channel does not change what a call returns. -/
theorem outcome_reserve {a b : Output} (h : a.channel ≠ b.channel) : (tl.reserve a).outcome b = tl.outcome b := by
  apply outcome_congr
  rw [get?_reserve]
  simp [h]

/-- Every call of a sequence succeeds when its turn comes. -/
def Meets : Timeline → List Output → Prop
  | _, [] => True
  | tl, o :: os => (∃ t, tl.outcome o = .ok t) ∧ Meets (tl.reserve o) os

theorem le_latest {ts : List ℕ} {t : ℕ} (h : t ∈ ts) : t ≤ latest ts := by
  have hfold : ∀ first, first ≤ ts.foldl max first ∧ ∀ t ∈ ts, t ≤ ts.foldl max first := by
    clear h
    induction ts with
    | nil => simp
    | cons a ts ih =>
      intro first
      obtain ⟨hfirst, hrest⟩ := ih (max first a)
      exact ⟨Nat.le_trans (Nat.le_max_left _ _) hfirst,
        List.forall_mem_cons.mpr ⟨Nat.le_trans (Nat.le_max_right _ _) hfirst, hrest⟩⟩
  exact (hfold 0).2 t h

theorem latest_mem {ts : List ℕ} (h : ts ≠ []) : latest ts ∈ ts := by
  -- a fold of `max` gives its first value or a member; the first value is zero here
  have hfold : ∀ first, ts.foldl max first = first ∨ ts.foldl max first ∈ ts := by
    clear h
    induction ts with
    | nil => simp
    | cons a ts ih =>
      intro first
      rw [List.foldl_cons]
      rcases ih (max first a) with hfirst | hmem
      · rcases Nat.le_total first a with hle | hle
        · rw [hfirst, Nat.max_eq_right hle]
          exact Or.inr (List.mem_cons_self ..)
        · rw [hfirst, Nat.max_eq_left hle]
          exact Or.inl rfl
      · exact Or.inr (List.mem_cons_of_mem _ hmem)
  rcases hfold 0 with hzero | hmem
  · obtain ⟨t, ht⟩ := List.exists_mem_of_ne_nil ts h
    have hle : t ≤ latest ts := le_latest ht
    have htop : latest ts = t := by
      rw [latest, hzero] at hle ⊢
      omega
    rwa [htop]
  · exact hmem

/-- No channel is past the horizon. -/
theorem le_horizon {ch : Channel} {ts : ℕ} (h : tl.get? ch = some ts) : ts ≤ tl.horizon true true := by
  apply le_latest
  cases ch with
  | gen i =>
    obtain ⟨t, ht, rfl⟩ := Option.map_eq_some_iff.mp h
    exact List.mem_map_of_mem (List.mem_append_left _ (List.mem_of_getElem? ht))
  | readout i =>
    obtain ⟨t, ht, rfl⟩ := Option.map_eq_some_iff.mp h
    exact List.mem_map_of_mem (List.mem_append_right _ (List.mem_of_getElem? ht))

theorem get?_reset (tl : Timeline) (ch : Channel) : tl.reset.get? ch = (tl.get? ch).map fun _ => 0 := by
  cases ch with
  | gen i => simp only [reset, get?, List.getElem?_map, Option.map_map, Function.comp_def, UInt64.toNat_zero]
  | readout i => simp only [reset, get?, List.getElem?_map, Option.map_map, Function.comp_def, UInt64.toNat_zero]

theorem get?_foldl_set (tl : Timeline) (chs : List Channel) (t : UInt64) (ch : Channel) :
    (chs.foldl (fun tl ch => tl.set ch t) tl).get? ch =
      (tl.get? ch).map fun ts => if ch ∈ chs then t.toNat else ts := by
  induction chs generalizing tl with
  | nil => simp
  | cons c chs ih =>
    rw [List.foldl_cons, ih, get?_set, Option.map_map]
    congr 1
    funext ts
    by_cases hc : c = ch
    · simp [hc]
    · simp [hc, Ne.symm hc]

theorem get_eq_ok_iff {ch : Channel} {t : ℕ} : tl.get ch = .ok t ↔ tl.get? ch = some t := by
  unfold get
  cases tl.get? ch <;> simp

/-- The latest of the timestamps that were read is a time, and is written as it is. -/
theorem toNat_latest {chs : List Channel} {ts : List ℕ} (hts : chs.mapM tl.get = .ok ts) :
    (UInt64.ofNat (latest ts)).toNat = latest ts := by
  refine UInt64.toNat_ofNat_of_lt' ?_
  by_cases hnil : ts = []
  · rw [hnil]
    decide
  · obtain ⟨ch, -, hget⟩ := exists_of_mem_mapM hts (latest_mem hnil)
    exact get?_lt (get_eq_ok_iff.mp hget)

/-- Aligned channels are at a time that none of them is past, and the others stay where
they are. -/
theorem get?_align {chs : List Channel} (h : tl.align chs = .ok tl') :
    ∃ top, (∀ ch ∈ chs, ∀ ts, tl.get? ch = some ts → ts ≤ top) ∧
      ∀ ch, tl'.get? ch = (tl.get? ch).map fun ts => if ch ∈ chs then top else ts := by
  obtain ⟨times, htimes, h⟩ := bind_eq_ok_iff.mp h
  cases h
  refine ⟨latest times, fun ch hch ts hts => ?_, fun ch => ?_⟩
  · obtain ⟨t, ht, hget⟩ := exists_mem_of_mapM htimes hch
    simp only [get, hts, Except.ok.injEq] at hget
    rw [hget]
    exact le_latest ht
  · rw [get?_foldl_set, toNat_latest htimes]

end Timeline

/-- A call of the scheduler on a program changes its timeline and nothing else. -/
theorem Build.schedule_apply (o : Output) (p : Program) :
    (Build.schedule o.channel o.time o.duration).apply p =
      (p.timeline.outcome o, { p with timeline := p.timeline.reserve o }) := by
  unfold Build.schedule
  rw [apply_get_bind, apply_lift_bind]
  unfold Timeline.outcome Timeline.reserve
  cases p.timeline.schedule o.channel o.time o.duration with
  | error e => rfl
  | ok r => rfl

open Timeline in
/-- **Channels are scheduled apart**: after any sequence of calls of the scheduler, the
timestamp of a channel is the fold, over the calls on that channel alone, of going on
from the later of timestamp and output time by the duration, as long as that is a time of
64 bits. A call on a missing channel fails and leaves the program as it was, and so does
one that would take its channel past the last time. So neighbouring calls on different
channels can be exchanged, both for the timeline in the end and for the times that they
return, and a channel whose calls are all in their turn ends at its first timestamp
plus the sum of their durations, whatever is asked for on other channels in between. -/
theorem timestamps_by_channel (tl : Timeline) (calls : List Output) :
    (∀ ch, (∀ ts ∈ tl.get? ch,
        (calls.filter (·.channel = ch)).foldl (fun ts o => max ts (o.start ts) + o.duration) ts < 2 ^ 64) →
      (tl.reserveAll calls).get? ch = (tl.get? ch).map fun ts =>
        (calls.filter (·.channel = ch)).foldl (fun ts o => max ts (o.start ts) + o.duration) ts) ∧
      (∀ o : Output, tl.get? o.channel = none → tl.reserve o = tl ∧ ∀ p : Program, p.timeline = tl →
        (Build.schedule o.channel o.time o.duration).apply p = (.error (missing o.channel), p)) ∧
      (∀ (o : Output) (ts : ℕ), tl.get? o.channel = some ts → 2 ^ 64 ≤ max ts (o.start ts) + o.duration →
        tl.reserve o = tl ∧ ∀ p : Program, p.timeline = tl →
          (Build.schedule o.channel o.time o.duration).apply p = (.error .timeOverflow, p)) ∧
      (∀ pre a b post, calls = pre ++ a :: b :: post → a.channel ≠ b.channel →
        tl.reserveAll (pre ++ b :: a :: post) = tl.reserveAll calls ∧
        (tl.reserveAll (pre ++ [a])).outcome b = (tl.reserveAll pre).outcome b ∧
        (tl.reserveAll (pre ++ [b])).outcome a = (tl.reserveAll pre).outcome a) ∧
      ∀ ch, (∀ o ∈ calls, o.channel = ch → o.time = .auto) →
        (∀ ts ∈ tl.get? ch, ts + ((calls.filter (·.channel = ch)).map (·.duration)).sum < 2 ^ 64) →
        (tl.reserveAll calls).get? ch =
          (tl.get? ch).map (· + ((calls.filter (·.channel = ch)).map (·.duration)).sum) := by
  have hfail : ∀ (o : Output) (e : Error), tl.outcome o = .error e → tl.reserve o = tl ∧
      ∀ p : Program, p.timeline = tl → (Build.schedule o.channel o.time o.duration).apply p = (.error e, p) := by
    intro o e he
    refine ⟨reserve_of_outcome_eq_error he, ?_⟩
    rintro p rfl
    rw [Build.schedule_apply, reserve_of_outcome_eq_error he, he]
  refine ⟨fun ch => get?_reserveAll_of_lt, fun o hnone => hfail o _ (outcome_of_get?_eq_none hnone),
    fun o ts hts hle => hfail o _ (outcome_of_le_advance hts hle), ?_, ?_⟩
  · rintro pre a b post rfl hab
    rw [reserveAll_concat, reserveAll_concat]
    exact ⟨reserveAll_swap hab pre post, outcome_reserve hab, outcome_reserve hab.symm⟩
  · intro ch hauto hbound
    have hall : ∀ o ∈ calls.filter (·.channel = ch), o.time = .auto := by
      intro o ho
      rw [List.mem_filter, decide_eq_true_iff] at ho
      exact hauto o ho.1 ho.2
    rw [get?_reserveAll_of_lt]
    · simp only [Output.foldl_advance_auto hall]
    · simpa only [Output.foldl_advance_auto hall] using hbound

/-- Two outputs in turn on generator 0, with an early one on readout 0 and one on a
missing generator in between: generator 0 is taken for the sum of its durations. -/
theorem timestamps_by_channel_interleaved :
    (Timeline.reserveAll ⟨[100, 7], [60]⟩ [⟨.gen 0, .auto, 40⟩, ⟨.readout 0, .fixed 20, 5⟩, ⟨.gen 2, .auto, 9⟩,
      ⟨.gen 0, .auto, 25⟩]).get? (.gen 0) = some (100 + (40 + 25)) :=
  (timestamps_by_channel _ _).2.2.2.2 (.gen 0) (by decide) (by decide)

end PulseAsm
