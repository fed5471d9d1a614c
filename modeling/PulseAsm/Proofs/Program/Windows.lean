import PulseAsm.Proofs.Program.Blocks
import PulseAsm.Proofs.Program.Outputs

/-!
# Outputs do not overlap

An output takes its channel for a window of time, which is counted from the origin at
the moment of the call (`Window`). Synchronizing puts the timestamps back at zero, so
they do not tell by themselves which windows are taken. The invariant is
`Timeline.Booked`: windows of one channel follow one another, and none ends later than
the origin plus the timestamp of its channel.

Outputs that are asked for no earlier than the timestamp of their channel keep it
(`Timeline.Booked.reserveAll`), and so do the alignment of channels and a move of the
origin (`Timeline.Booked.later`); hence every step does that keeps time
(`Step.booked`), and every script of such steps (`Script.booked`).
-/

namespace PulseAsm

/-- The time for which an output takes its channel. -/
structure Window where
  /-- The channel. -/
  channel : Channel
  /-- When it starts. -/
  start : ℤ
  /-- How long it is. -/
  duration : ℕ
  deriving DecidableEq

/-- When a window is over. -/
def Window.stop (w : Window) : ℤ := w.start + w.duration

/-- One window is over when the other starts, if they are on one channel. -/
def Window.Precedes (v w : Window) : Prop := v.channel = w.channel → v.stop ≤ w.start

/-! ### Windows on a timeline -/

namespace Timeline

/-- None of the outputs is asked for before the timestamp that its channel has by then. -/
def InOrder : Timeline → List Output → Prop
  | _, [] => True
  | tl, o :: os => (∀ ts ∈ tl.get? o.channel, ts ≤ o.start ts) ∧ InOrder (tl.reserve o) os

instance decidableInOrder : ∀ (tl : Timeline) (os : List Output), Decidable (tl.InOrder os)
  | _, [] => isTrue trivial
  | tl, o :: os => @instDecidableAnd _ _ _ (decidableInOrder (tl.reserve o) os)

/-- The windows of outputs, from the times that the scheduler returns. -/
def windows (origin : ℤ) : Timeline → List Output → List Window
  | _, [] => []
  | tl, o :: os =>
    match tl.outcome o with
    | .ok t => ⟨o.channel, origin + t, o.duration⟩ :: windows origin (tl.reserve o) os
    | .error _ => windows origin (tl.reserve o) os

/-- If all calls succeed, every output gets its window. -/
theorem map_windows {tl : Timeline} (origin : ℤ) {os : List Output} (h : tl.Meets os) :
    (tl.windows origin os).map (fun w => (w.channel, w.duration)) = os.map fun o => (o.channel, o.duration) := by
  induction os generalizing tl with
  | nil => rfl
  | cons o os ih =>
    obtain ⟨⟨t, ht⟩, hrest⟩ := h
    rw [windows, ht]
    simp [ih hrest]

/-- The windows are in order on each channel, and each is over by the origin plus the
timestamp of its channel. -/
structure Booked (tl : Timeline) (origin : ℤ) (ws : List Window) : Prop where
  ordered : ws.Pairwise Window.Precedes
  covered : ∀ w ∈ ws, ∃ ts, tl.get? w.channel = some ts ∧ w.stop ≤ origin + ts

namespace Booked

variable {tl tl' : Timeline} {origin origin' : ℤ} {ws : List Window}

theorem nil (tl : Timeline) (origin : ℤ) : tl.Booked origin [] := ⟨.nil, List.forall_mem_nil _⟩

/-- It is enough that no channel goes back in time, counted with the origin. -/
theorem later (h : tl.Booked origin ws)
    (hle : ∀ ch ts, tl.get? ch = some ts → ∃ ts', tl'.get? ch = some ts' ∧ origin + ts ≤ origin' + ts') :
    tl'.Booked origin' ws := by
  refine ⟨h.ordered, ?_⟩
  intro w hw
  obtain ⟨ts, hts, hstop⟩ := h.covered w hw
  obtain ⟨ts', hts', hle⟩ := hle w.channel ts hts
  exact ⟨ts', hts', Int.le_trans hstop hle⟩

/-- A call of the scheduler puts no channel back. -/
theorem reserve_keeps (h : tl.Booked origin ws) (o : Output) : (tl.reserve o).Booked origin ws := by
  refine h.later ?_
  intro ch ts hts
  refine ⟨_, by rw [get?_reserve, hts]; rfl, ?_⟩
  have hmove := o.le_move ts
  dsimp only
  split <;> omega

/-- An output that is asked for in order starts when all windows of its channel are over. -/
theorem reserve (h : tl.Booked origin ws) {o : Output} (horder : ∀ ts ∈ tl.get? o.channel, ts ≤ o.start ts) {t : ℕ}
    (ht : tl.outcome o = .ok t) : (tl.reserve o).Booked origin (ws ++ [⟨o.channel, origin + t, o.duration⟩]) := by
  obtain ⟨ts, hts, hlt, rfl⟩ := outcome_eq_ok_iff.mp ht
  have hstart : ts ≤ o.start ts := horder ts hts
  have hnew : (tl.reserve o).get? o.channel = some (o.start ts + o.duration) := by
    rw [get?_reserve, hts, Option.map_some, if_pos rfl, Output.move_of_lt hlt, Output.advance, Nat.max_eq_right hstart]
  refine ⟨List.pairwise_append.mpr ⟨h.ordered, List.pairwise_singleton .., ?_⟩, ?_⟩
  · -- an earlier window is over by the timestamp, and the output starts no earlier than that
    intro v hv w hw hchannel
    rw [List.mem_singleton.mp hw] at hchannel ⊢
    obtain ⟨ts', hts', hstop⟩ := h.covered v hv
    have hsame : some ts' = some ts := by rw [← hts', ← hts, hchannel]
    have heq : ts' = ts := Option.some.inj hsame
    show v.stop ≤ origin + o.start ts
    omega
  · intro w hw
    rcases List.mem_append.mp hw with hw | hw
    · exact (h.reserve_keeps o).covered w hw
    · rw [List.mem_singleton.mp hw]
      refine ⟨_, hnew, ?_⟩
      show origin + o.start ts + o.duration ≤ origin + ((o.start ts + o.duration : ℕ) : ℤ)
      omega

theorem reserveAll (h : tl.Booked origin ws) {os : List Output} (horder : tl.InOrder os) :
    (tl.reserveAll os).Booked origin (ws ++ tl.windows origin os) := by
  induction os generalizing tl ws with
  | nil =>
    rw [windows, List.append_nil]
    exact h
  | cons o os ih =>
    obtain ⟨ho, hos⟩ := horder
    have hcons : tl.reserveAll (o :: os) = (tl.reserve o).reserveAll os := rfl
    rw [hcons, windows]
    cases ht : tl.outcome o with
    | ok t =>
      have hall := ih (h.reserve ho ht) hos
      rwa [List.append_assoc] at hall
    | error e =>
      rw [reserve_of_outcome_eq_error ht] at hos ⊢
      exact ih h hos

/-- Aligned channels are not put back. -/
theorem align (h : tl.Booked origin ws) {chs : List Channel} (halign : tl.align chs = .ok tl') :
    tl'.Booked origin ws := by
  obtain ⟨top, htop, hget⟩ := get?_align halign
  refine h.later ?_
  intro ch ts hts
  refine ⟨_, by rw [hget, hts]; rfl, ?_⟩
  split
  · rename_i hch
    exact Int.add_le_add_left (Int.ofNat_le.mpr (htop ch hch ts hts)) _
  · exact Int.le_refl _

/-- A move of the origin by the horizon or more makes up for putting the channels back. -/
theorem reset (h : tl.Booked origin ws) (t : ℕ) :
    tl.reset.Booked (origin + (tl.horizon true true + t : ℕ)) ws := by
  refine h.later ?_
  intro ch ts hts
  refine ⟨0, by rw [get?_reset, hts]; rfl, ?_⟩
  have hle := le_horizon hts
  omega

/-- Every window is over by the origin plus the horizon. -/
theorem stop_le (h : tl.Booked origin ws) {w : Window} (hw : w ∈ ws) : w.stop ≤ origin + tl.horizon true true := by
  obtain ⟨ts, hts, hstop⟩ := h.covered w hw
  have hle := le_horizon hts
  omega

end Booked

end Timeline

/-! ### Windows of a script -/

namespace Script

/-- Every output of the steps is asked for no earlier than the timestamp that its channel
has by then. -/
def InOrder : Program → List Step → Prop
  | _, [] => True
  | p, s :: steps => p.timeline.InOrder (s.outputs p) ∧ InOrder (s.apply.apply p).2 steps

instance decidableInOrder : ∀ (p : Program) (steps : List Step), Decidable (InOrder p steps)
  | _, [] => isTrue trivial
  | p, s :: steps => @instDecidableAnd _ _ _ (decidableInOrder (s.apply.apply p).2 steps)

/-- All outputs that the steps ask for, in order. -/
def outputs : Program → List Step → List Output
  | _, [] => []
  | p, s :: steps => s.outputs p ++ outputs (s.apply.apply p).2 steps

/-- The windows of all outputs of the steps, in order. -/
def windows : Program → List Step → List Window
  | _, [] => []
  | p, s :: steps => p.timeline.windows p.origin (s.outputs p) ++ windows (s.apply.apply p).2 steps

theorem inOrder_of_append {p : Program} {pre post : List Step} (h : InOrder p (pre ++ post)) : InOrder p pre := by
  induction pre generalizing p with
  | nil => exact trivial
  | cons s pre ih => exact ⟨h.1, ih h.2⟩

end Script

section Booked

variable {p q : Program} {ws : List Window}

/-- A step that keeps time adds its windows to those that are booked. -/
theorem Step.booked {s : Step} (hs : s.KeepsTime) (h : s.apply.apply p = (.ok (), q))
    (horder : p.timeline.InOrder (s.outputs p)) (hp : p.timeline.Booked p.origin ws) :
    q.timeline.Booked q.origin (ws ++ p.timeline.windows p.origin (s.outputs p)) := by
  rcases Step.clock_cases hs h with
    ⟨-, htimeline, horigin⟩ | ⟨chs, hnone, halign, horigin⟩ | ⟨t, rfl, htimeline, horigin⟩
  · rw [htimeline, horigin]
    exact hp.reserveAll horder
  · rw [hnone, horigin, Timeline.windows, List.append_nil]
    exact hp.align halign
  · have hnone : (Step.syncAll t).outputs p = [] := rfl
    rw [hnone, htimeline, horigin, Timeline.windows, List.append_nil]
    exact hp.reset t

/-- A step that succeeds gets a window for each of its outputs. -/
theorem Step.map_windows {s : Step} (hs : s.KeepsTime) (h : s.apply.apply p = (.ok (), q)) :
    (p.timeline.windows p.origin (s.outputs p)).map (fun w => (w.channel, w.duration)) =
      (s.outputs p).map fun o => (o.channel, o.duration) := by
  refine Timeline.map_windows p.origin ?_
  rcases Step.clock_cases hs h with ⟨hmeets, -⟩ | ⟨chs, hnone, -⟩ | ⟨t, rfl, -⟩
  · exact hmeets
  · rw [hnone]
    exact trivial
  · exact trivial

theorem Script.map_windows {steps : List Step} (hsteps : ∀ s ∈ steps, s.KeepsTime)
    (h : (Script.apply steps).apply p = (.ok (), q)) :
    (Script.windows p steps).map (fun w => (w.channel, w.duration)) =
      (Script.outputs p steps).map fun o => (o.channel, o.duration) := by
  induction steps generalizing p with
  | nil => rfl
  | cons s steps ih =>
    rw [List.forall_mem_cons] at hsteps
    obtain ⟨r, hs, hrest⟩ := Script.apply_cons_eq_ok_iff.mp h
    have hih := ih hsteps.2 hrest
    rw [Script.windows, Script.outputs, List.map_append, List.map_append, Step.map_windows hsteps.1 hs, hs, hih]

theorem Script.booked {steps : List Step} (hsteps : ∀ s ∈ steps, s.KeepsTime)
    (h : (Script.apply steps).apply p = (.ok (), q)) (horder : Script.InOrder p steps)
    (hp : p.timeline.Booked p.origin ws) : q.timeline.Booked q.origin (ws ++ Script.windows p steps) := by
  induction steps generalizing p ws with
  | nil =>
    cases h
    rw [Script.windows, List.append_nil]
    exact hp
  | cons s steps ih =>
    rw [List.forall_mem_cons] at hsteps
    obtain ⟨r, hs, hrest⟩ := Script.apply_cons_eq_ok_iff.mp h
    obtain ⟨hfirst, horder⟩ := horder
    rw [Script.windows]
    rw [hs] at horder ⊢
    rw [← List.append_assoc]
    exact ih hsteps.2 hrest horder (Step.booked hsteps.1 hs hfirst hp)

end Booked

/-- **Outputs never overlap on a channel**: take any steps that succeed, among them no
instruction of the caller's own choice and none that puts the channels back at zero by
itself, whose outputs are asked for no earlier than the timestamp of their channel. Then
every output has its window; on each channel a window is over when any later one starts,
wherever the origin was moved in between; and synchronizing by `t` moves the origin at
least `t` past the end of every window that was taken before. -/
theorem windows_follow_one_another {p q : Program} {steps : List Step}
    (h : (Script.apply steps).apply p = (.ok (), q)) (hsteps : ∀ s ∈ steps, s.KeepsTime)
    (horder : Script.InOrder p steps) :
    (Script.windows p steps).map (fun w => (w.channel, w.duration)) =
        (Script.outputs p steps).map (fun o => (o.channel, o.duration)) ∧
      (Script.windows p steps).Pairwise Window.Precedes ∧
      ∀ pre (t : ℕ) post, steps = pre ++ .syncAll t :: post →
        ∀ w ∈ Script.windows p pre, w.stop + t ≤ (p.after (pre ++ [.syncAll t])).origin := by
  refine ⟨Script.map_windows hsteps h, (Script.booked hsteps h horder (.nil _ _)).ordered, ?_⟩
  rintro pre t post rfl w hw
  obtain ⟨r, hpre, hrest⟩ := Script.apply_append_eq_ok_iff.mp h
  obtain ⟨r', hsync, -⟩ := Script.apply_cons_eq_ok_iff.mp hrest
  have hbooked : r.timeline.Booked r.origin (Script.windows p pre) :=
    Script.booked (fun s hs => hsteps s (List.mem_append_left _ hs)) hpre (Script.inOrder_of_append horder) (.nil _ _)
  have hafter : p.after (pre ++ [.syncAll t]) = r' :=
    Program.after_of_apply (Script.apply_append_eq_ok_iff.mpr
      ⟨r, hpre, Script.apply_cons_eq_ok_iff.mpr ⟨r', hsync, rfl⟩⟩)
  have hstop := hbooked.stop_le hw
  rw [hafter, (Build.syncAll_eq_ok hsync).2]
  omega

/-- An empty program on a board with one generator and one readout. -/
def toneProgram : Program :=
  { bareProgram with
    board := { bareBoard with gens := [{}], readouts := [⟨.pulsed 0, 384.0⟩] }
    envelopes := [⟨0, 16, 32766, 0, [], []⟩]
    timeline := .zero 1 1
    readoutLengths := [none] }

/-- A pulse of 40 cycles and an acquisition of 50, and again a pulse when that is over. -/
def toneSteps : List Step :=
  [.pulse 0 "tone"
      [("style", .str "const"), ("freq", .int 100), ("phase", .int 0), ("gain", .int 1), ("length", .int 40)],
    .readout 0 50, .play 0 "tone" none, .trigger [0] [] 60 10, .align [0] [0], .play 0 "tone" none]

/-- The same pulse and acquisition a little later, at times that were taken before. -/
def toneAgain : List Step := [.play 0 "tone" (some 3), .trigger [0] [] 0 10]

/-- Synchronizing goes past the second pulse, which starts only when the acquisition is over. -/
theorem windows_follow_one_another_after_sync :
    ∃ q, (Script.apply (toneSteps ++ .syncAll 5 :: toneAgain)).apply toneProgram = (.ok (), q) ∧
      Script.InOrder toneProgram (toneSteps ++ .syncAll 5 :: toneAgain) ∧
      Script.windows toneProgram (toneSteps ++ .syncAll 5 :: toneAgain) =
        [⟨.gen 0, 0, 40⟩, ⟨.readout 0, 60, 50⟩, ⟨.gen 0, 110, 40⟩, ⟨.gen 0, 158, 40⟩, ⟨.readout 0, 155, 50⟩] ∧
      (Script.windows toneProgram (toneSteps ++ .syncAll 5 :: toneAgain)).Pairwise Window.Precedes ∧
      ∀ w ∈ Script.windows toneProgram toneSteps,
        w.stop + 5 ≤ (toneProgram.after (toneSteps ++ [.syncAll 5])).origin := by
  have hok : ((Script.apply (toneSteps ++ .syncAll 5 :: toneAgain)).apply toneProgram).1.toBool := by decide +kernel
  have horder : Script.InOrder toneProgram (toneSteps ++ .syncAll 5 :: toneAgain) := by decide +kernel
  cases hrun : (Script.apply (toneSteps ++ .syncAll 5 :: toneAgain)).apply toneProgram with
  | mk result q =>
    rw [hrun] at hok
    cases result with
    | error e => cases hok
    | ok _ =>
      obtain ⟨-, hpairwise, hsync⟩ :=
        windows_follow_one_another hrun (by simp [toneSteps, toneAgain, Step.KeepsTime]) horder
      exact ⟨q, rfl, horder, by decide +kernel, hpairwise, hsync _ _ _ rfl⟩

end PulseAsm
