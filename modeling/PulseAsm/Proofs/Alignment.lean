import PulseAsm.Proofs.Timeline
import Mathlib.Order.Bounds.Defs

/-!
# Channels are aligned as a whole

Aligning reads the timestamps of the listed channels, one after the other, and then writes
the latest of them over each, also where a channel is listed more than once. What comes of
this can be said without the loops: the listed channels are all at the greatest of their
timestamps, and no other channel has moved (`Timeline.Aligned`). There is one such timeline
at most (`Aligned.unique`), and which it is depends on the set of channels alone.

A missing channel is met while nothing has been written yet, at the first place where one
is listed (`align_eq_error_iff`). So it makes no difference if the timeline is changed in
place, where each write has to find its channel again and nothing that has been written is
taken back (`alignInPlace_eq`).
-/

namespace PulseAsm

namespace Timeline

variable {tl tl' tl₁ tl₂ : Timeline} {chs chs' : List Channel} {ch : Channel}

/-- The timestamps of the channels of a list. -/
def times (tl : Timeline) (chs : List Channel) : Set ℕ := {t | ∃ ch ∈ chs, tl.get? ch = some t}

/-! ### Reading one channel and all of them -/

theorem get_eq_error_iff {e : Error} : tl.get ch = .error e ↔ tl.get? ch = none ∧ e = missing ch := by
  unfold get
  cases tl.get? ch <;> simp [eq_comm]

theorem exists_get_iff : (∃ t, tl.get ch = .ok t) ↔ tl.get? ch ≠ none := by
  simp only [get_eq_ok_iff, Option.ne_none_iff_exists']

theorem isGreatest_latest {ts : List ℕ} (hts : chs.mapM tl.get = .ok ts) (hch : ch ∈ chs) :
    IsGreatest (tl.times chs) (latest ts) := by
  constructor
  · obtain ⟨t, ht, -⟩ := exists_mem_of_mapM hts hch
    obtain ⟨c, hc, hget⟩ := exists_of_mem_mapM hts (latest_mem (List.ne_nil_of_mem ht))
    exact ⟨c, hc, get_eq_ok_iff.mp hget⟩
  · rintro t ⟨c, hc, hget⟩
    obtain ⟨t', ht', hget'⟩ := exists_mem_of_mapM hts hc
    rw [get_eq_ok_iff, hget, Option.some.injEq] at hget'
    exact le_latest (hget' ▸ ht')

/-! ### When aligning fails -/

/-- Aligning fails at the first listed channel that is missing. -/
theorem align_eq_error_iff {e : Error} :
    tl.align chs = .error e ↔
      ∃ pre ch post, chs = pre ++ ch :: post ∧ (∀ c ∈ pre, tl.get? c ≠ none) ∧ tl.get? ch = none ∧ e = missing ch := by
  have halign : tl.align chs = .error e ↔ chs.mapM tl.get = .error e := by
    unfold align
    rw [bind_eq_error_iff]
    refine or_iff_left ?_
    rintro ⟨_, -, h⟩
    cases h
  simp only [halign, mapM_eq_error_iff, exists_get_iff, get_eq_error_iff]

theorem exists_align_iff : (∃ tl', tl.align chs = .ok tl') ↔ ∀ ch ∈ chs, tl.get? ch ≠ none := by
  simp only [← exists_get_iff, ← exists_mapM_iff]
  constructor
  · rintro ⟨tl', h⟩
    obtain ⟨ts, hts, -⟩ := bind_eq_ok_iff.mp h
    exact ⟨ts, hts⟩
  · rintro ⟨ts, hts⟩
    exact ⟨_, bind_eq_ok_iff.mpr ⟨ts, hts, rfl⟩⟩

/-! ### What aligning makes of a timeline -/

/-- In the second timeline, the channels of the list are at the greatest of the timestamps
that they have in the first, and all others are where they are in the first. -/
structure Aligned (tl : Timeline) (chs : List Channel) (tl' : Timeline) : Prop where
  /-- The listed channels are at the greatest of their timestamps. -/
  listed : ∀ ch ∈ chs, ∃ top, tl'.get? ch = some top ∧ IsGreatest (tl.times chs) top
  /-- The others have not moved. -/
  others : ∀ ch, ch ∉ chs → tl'.get? ch = tl.get? ch

theorem aligned_of_align (h : tl.align chs = .ok tl') : tl.Aligned chs tl' := by
  have hall := exists_align_iff.mp ⟨tl', h⟩
  obtain ⟨ts, hts, h⟩ := bind_eq_ok_iff.mp h
  cases h
  refine ⟨fun ch hch => ⟨latest ts, ?_, isGreatest_latest hts hch⟩, fun ch hch => ?_⟩
  · obtain ⟨t, ht⟩ := Option.ne_none_iff_exists'.mp (hall ch hch)
    rw [get?_foldl_set, toNat_latest hts, ht, Option.map_some, if_pos hch]
  · rw [get?_foldl_set]
    simp [hch]

namespace Aligned

theorem unique (h₁ : tl.Aligned chs tl₁) (h₂ : tl.Aligned chs tl₂) : tl₁ = tl₂ := by
  apply ext_get?
  intro ch
  by_cases hch : ch ∈ chs
  · obtain ⟨top₁, hget₁, htop₁⟩ := h₁.listed ch hch
    obtain ⟨top₂, hget₂, htop₂⟩ := h₂.listed ch hch
    rw [hget₁, hget₂, Nat.le_antisymm (htop₂.2 htop₁.1) (htop₁.2 htop₂.1)]
  · rw [h₁.others ch hch, h₂.others ch hch]

/-- Only the set of channels counts. -/
theorem congr (h : tl.Aligned chs tl') (hmem : ∀ ch, ch ∈ chs' ↔ ch ∈ chs) : tl.Aligned chs' tl' := by
  have htimes : tl.times chs' = tl.times chs := by simp only [times, hmem]
  refine ⟨fun ch hch => ?_, fun ch hch => h.others ch (mt (hmem ch).mpr hch)⟩
  rw [htimes]
  exact h.listed ch ((hmem ch).mp hch)

/-- Channels that are aligned stay where they are when they are aligned again. -/
theorem self (h : tl.Aligned chs tl') : tl'.Aligned chs tl' := by
  refine ⟨fun ch hch => ?_, fun _ _ => rfl⟩
  obtain ⟨top, hget, htop⟩ := h.listed ch hch
  refine ⟨top, hget, ⟨ch, hch, hget⟩, ?_⟩
  rintro t ⟨c, hc, hgetc⟩
  obtain ⟨top', hget', htop'⟩ := h.listed c hc
  rw [hget', Option.some.injEq] at hgetc
  exact hgetc ▸ htop.2 htop'.1

/-- Aligning a second list that shares a channel with the first brings it to the greatest
timestamp of both. -/
theorem union (h₁ : tl.Aligned chs tl₁) (h₂ : tl₁.Aligned chs' tl₂) {c : Channel} (hc : c ∈ chs) (hc' : c ∈ chs')
    (hch : ch ∈ chs') : ∃ top, tl₂.get? ch = some top ∧ IsGreatest (tl.times (chs ++ chs')) top := by
  obtain ⟨top, hget, hmem, hle⟩ := h₂.listed ch hch
  refine ⟨top, hget, ?_, ?_⟩
  · obtain ⟨d, hd, hgetd⟩ := hmem
    by_cases hd₁ : d ∈ chs
    · -- the time comes from the first list
      obtain ⟨top₁, hget₁, ⟨d₁, hd₁, hgetd₁⟩, -⟩ := h₁.listed d hd₁
      rw [hgetd, Option.some.injEq] at hget₁
      exact ⟨d₁, List.mem_append_left _ hd₁, hget₁ ▸ hgetd₁⟩
    · exact ⟨d, List.mem_append_right _ hd, h₁.others d hd₁ ▸ hgetd⟩
  · rintro t ⟨d, hd, hgetd⟩
    by_cases hd₁ : d ∈ chs
    · -- the shared channel hands the time of the first list on
      obtain ⟨top₁, hget₁, htop₁⟩ := h₁.listed c hc
      exact Nat.le_trans (htop₁.2 ⟨d, hd₁, hgetd⟩) (hle ⟨c, hc', hget₁⟩)
    · have hd₂ : d ∈ chs' := (List.mem_append.mp hd).resolve_left hd₁
      exact hle ⟨d, hd₂, (h₁.others d hd₁).trans hgetd⟩

end Aligned

/-- Aligning leaves the same channels. -/
theorem get?_ne_none_of_align (h : tl.align chs = .ok tl') (hch : tl.get? ch ≠ none) : tl'.get? ch ≠ none := by
  obtain ⟨top, -, hget⟩ := get?_align h
  rw [hget]
  simpa using hch

theorem toOption_align_congr (hmem : ∀ ch, ch ∈ chs' ↔ ch ∈ chs) :
    (tl.align chs').toOption = (tl.align chs).toOption := by
  by_cases hall : ∀ ch ∈ chs, tl.get? ch ≠ none
  · obtain ⟨tl₁, h₁⟩ := exists_align_iff.mpr hall
    obtain ⟨tl₂, h₂⟩ := exists_align_iff.mpr fun ch hch => hall ch ((hmem ch).mp hch)
    rw [h₁, h₂, ((aligned_of_align h₁).congr hmem).unique (aligned_of_align h₂)]
  · have hfail : ∀ {l : List Channel}, ¬(∀ ch ∈ l, tl.get? ch ≠ none) → (tl.align l).toOption = none := by
      intro l hl
      cases h : tl.align l with
      | error e => rfl
      | ok tl' => exact absurd (exists_align_iff.mp ⟨tl', h⟩) hl
    rw [hfail hall, hfail fun hall' => hall fun ch hch => hall' ch ((hmem ch).mpr hch)]

/-! ### Aligning in place -/

/-- Write one time over channels in place. Each is looked up, and a missing one ends the
writing; what has been written by then stays. -/
def writeAll (t : UInt64) : List Channel → Timeline → Except Error Unit × Timeline
  | [], tl => (.ok (), tl)
  | ch :: chs, tl =>
    match tl.get ch with
    | .ok _ => writeAll t chs (tl.set ch t)
    | .error e => (.error e, tl)

/-- Align channels in place: a walk over the list that reads, and one that writes. -/
def alignInPlace (tl : Timeline) (chs : List Channel) : Except Error Unit × Timeline :=
  match chs.foldlM (fun top ch => (tl.get ch).map (max top)) 0 with
  | .ok top => writeAll (.ofNat top) chs tl
  | .error e => (.error e, tl)

/-- Keeping the latest timestamp while reading comes to the same as looking for it in the end. -/
theorem foldlM_get_eq (tl : Timeline) (chs : List Channel) (top : ℕ) :
    chs.foldlM (fun top ch => (tl.get ch).map (max top)) top = (chs.mapM tl.get).map (·.foldl max top) := by
  induction chs generalizing top with
  | nil => rfl
  | cons ch chs ih =>
    rw [List.foldlM_cons, List.mapM_cons]
    cases tl.get ch with
    | error e => rfl
    | ok t =>
      refine (ih (max top t)).trans ?_
      cases chs.mapM tl.get <;> rfl

theorem writeAll_of_forall_ne_none {t : UInt64} (h : ∀ ch ∈ chs, tl.get? ch ≠ none) :
    writeAll t chs tl = (.ok (), chs.foldl (fun tl ch => tl.set ch t) tl) := by
  induction chs generalizing tl with
  | nil => rfl
  | cons ch chs ih =>
    obtain ⟨hch, hchs⟩ := List.forall_mem_cons.mp h
    obtain ⟨ts, hts⟩ := exists_get_iff.mpr hch
    have hrest : ∀ c ∈ chs, (tl.set ch t).get? c ≠ none := by
      intro c hc
      rw [get?_set]
      simpa using hchs c hc
    rw [writeAll, hts, List.foldl_cons]
    exact ih hrest

/-- In place or not, aligning comes to the same, and if it fails nothing has been written. -/
theorem alignInPlace_eq (tl : Timeline) (chs : List Channel) :
    tl.alignInPlace chs =
      match tl.align chs with
      | .ok tl' => (.ok (), tl')
      | .error e => (.error e, tl) := by
  unfold alignInPlace
  rw [foldlM_get_eq]
  cases hts : chs.mapM tl.get with
  | error e =>
    have halign : tl.align chs = .error e := bind_eq_error_iff.mpr (Or.inl hts)
    rw [halign]
    rfl
  | ok ts =>
    have halign : tl.align chs = .ok (chs.foldl (fun tl ch => tl.set ch (.ofNat (latest ts))) tl) :=
      bind_eq_ok_iff.mpr ⟨ts, hts, rfl⟩
    rw [halign]
    exact writeAll_of_forall_ne_none (exists_align_iff.mp ⟨_, halign⟩)

end Timeline

/-- Aligning channels of a program changes its timeline, or nothing. -/
theorem Build.align_apply (chs : List Channel) (p : Program) :
    (Build.align chs).apply p =
      match p.timeline.align chs with
      | .ok timeline => (.ok (), { p with timeline })
      | .error e => (.error e, p) := by
  unfold Build.align
  rw [apply_get_bind, apply_lift_bind]
  cases p.timeline.align chs <;> rfl

open Timeline in
/-- **Channels are aligned as a whole**: whichever channels are listed, in whatever order and
however often. Aligning fails exactly if one of them is missing, with the error of the first
that is, and then the timeline is left as it was, even if it is changed in place, and so is
the program, wherever the channel stands in the list. Otherwise the listed channels are all
at the greatest of their timestamps, and the other channels and the rest of the program have
not changed; aligning once more changes nothing. So the outcome depends on the set of
channels alone, but for the channel that an error names. If a second list shares a channel
with the first, aligning one after the other takes the second to the greatest timestamp of
both. -/
theorem align_joins_channels (tl : Timeline) (chs : List Channel) :
    ((∃ e, tl.align chs = .error e) ↔ ∃ ch ∈ chs, tl.get? ch = none) ∧
      (∀ e, tl.align chs = .error e →
        (∃ pre ch post, chs = pre ++ ch :: post ∧ (∀ c ∈ pre, tl.get? c ≠ none) ∧ tl.get? ch = none ∧ e = missing ch) ∧
        tl.alignInPlace chs = (.error e, tl) ∧
        ∀ p : Program, p.timeline = tl → (Build.align chs).apply p = (.error e, p)) ∧
      (∀ tl', tl.align chs = .ok tl' →
        tl.alignInPlace chs = (.ok (), tl') ∧
        (∀ p : Program, p.timeline = tl → (Build.align chs).apply p = (.ok (), { p with timeline := tl' })) ∧
        (∀ ch ∈ chs, ∃ top, tl'.get? ch = some top ∧ IsGreatest (tl.times chs) top) ∧
        (∀ ch, ch ∉ chs → tl'.get? ch = tl.get? ch) ∧ tl'.align chs = .ok tl') ∧
      (∀ chs', (∀ ch, ch ∈ chs' ↔ ch ∈ chs) → (tl.align chs').toOption = (tl.align chs).toOption) ∧
      ∀ chs', (∀ ch ∈ chs ++ chs', tl.get? ch ≠ none) → (∃ ch ∈ chs, ch ∈ chs') →
        ∃ tl₁ tl₂, tl.align chs = .ok tl₁ ∧ tl₁.align chs' = .ok tl₂ ∧
          ∀ ch ∈ chs', ∃ top, tl₂.get? ch = some top ∧ IsGreatest (tl.times (chs ++ chs')) top := by
  refine ⟨⟨?_, ?_⟩, ?_, ?_, fun chs' hmem => toOption_align_congr hmem, ?_⟩
  · rintro ⟨e, he⟩
    obtain ⟨pre, ch, post, rfl, -, hch, -⟩ := align_eq_error_iff.mp he
    exact ⟨ch, by simp, hch⟩
  · rintro ⟨ch, hch, hnone⟩
    cases h : tl.align chs with
    | error e => exact ⟨e, rfl⟩
    | ok tl' => exact absurd hnone (exists_align_iff.mp ⟨tl', h⟩ ch hch)
  · intro e he
    refine ⟨align_eq_error_iff.mp he, by rw [alignInPlace_eq, he], ?_⟩
    rintro p rfl
    rw [Build.align_apply, he]
  · intro tl' h
    have haligned := aligned_of_align h
    refine ⟨by rw [alignInPlace_eq, h], ?_, haligned.listed, haligned.others, ?_⟩
    · rintro p rfl
      rw [Build.align_apply, h]
    · obtain ⟨tl₁, h₁⟩ := exists_align_iff.mpr fun ch hch =>
        get?_ne_none_of_align h (exists_align_iff.mp ⟨tl', h⟩ ch hch)
      rw [h₁, (aligned_of_align h₁).unique haligned.self]
  · rintro chs' hall ⟨c, hc, hc'⟩
    obtain ⟨tl₁, h₁⟩ := exists_align_iff.mpr fun ch hch => hall ch (List.mem_append_left _ hch)
    obtain ⟨tl₂, h₂⟩ := exists_align_iff.mpr fun ch hch =>
      get?_ne_none_of_align h₁ (hall ch (List.mem_append_right _ hch))
    exact ⟨tl₁, tl₂, h₁, h₂, fun ch hch => (aligned_of_align h₁).union (aligned_of_align h₂) hc hc' hch⟩

/-- The first list names readout 0 twice and shares generator 1 with the second. Where a
missing generator stands between two channels that are there, the program is left alone. -/
theorem align_joins_channels_shared :
    (∃ tl₁ tl₂, Timeline.align ⟨[100, 7], [60]⟩ [.readout 0, .gen 1, .readout 0] = .ok tl₁ ∧
        tl₁.align [.gen 1, .gen 0] = .ok tl₂ ∧
        ∀ ch ∈ [Channel.gen 1, .gen 0], ∃ top, tl₂.get? ch = some top ∧
          IsGreatest (Timeline.times ⟨[100, 7], [60]⟩ [.readout 0, .gen 1, .readout 0, .gen 1, .gen 0]) top) ∧
      ∀ p : Program, p.timeline = ⟨[100, 7], [60]⟩ →
        (Build.align [.gen 1, .gen 5, .readout 0]).apply p = (.error (Timeline.missing (.gen 5)), p) :=
  ⟨(align_joins_channels ⟨[100, 7], [60]⟩ [.readout 0, .gen 1, .readout 0]).2.2.2.2 [.gen 1, .gen 0] (by decide)
      ⟨.gen 1, by decide⟩,
    ((align_joins_channels ⟨[100, 7], [60]⟩ [.gen 1, .gen 5, .readout 0]).2.1 _ rfl).2.2⟩

end PulseAsm
