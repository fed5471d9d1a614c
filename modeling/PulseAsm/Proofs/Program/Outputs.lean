import PulseAsm.Proofs.Program.Growth
import PulseAsm.Proofs.Timeline
import Mathlib.Algebra.Ring.Int.Defs

/-!
# What steps schedule

`Step.outputs` lists the outputs that a step asks the scheduler for: playing a pulse
asks for one, triggering for one on each readout. Times count from the origin
(`Program.origin`), which the synchronizing instructions move on.

`Step.clock_cases` says once what a step that succeeds does to the timeline and to the
origin: it makes its calls of the scheduler, or it aligns channels, or it moves the
origin past all channels and puts them back at zero.
-/

namespace PulseAsm

/-! ### Outputs -/

/-- How long a pulse takes a generator, in timing cycles; zero if there is no such pulse. -/
def Program.pulseDuration (p : Program) (ch : ℕ) (name : String) : ℕ :=
  match p.findPulse? ch name with
  | some e => (p.board.genCycles ch e.pulse.length).toOption.getD 0
  | none => 0

/-- How long a trigger takes a readout, in timing cycles; zero if that is not declared. -/
def Program.readoutDuration (p : Program) (ro : ℕ) : ℕ :=
  match (p.readoutLengths[ro]?).join with
  | some length => (p.board.readoutCycles ro length).toOption.getD 0
  | none => 0

/-- The output that playing a pulse asks for. -/
def Program.playOutput (p : Program) (ch : ℕ) (name : String) (time : Time) : Output :=
  ⟨.gen ch, time, p.pulseDuration ch name⟩

/-- The output that triggering a readout asks for. -/
def Program.readoutOutput (p : Program) (t ro : ℕ) : Output := ⟨.readout ro, .fixed t, p.readoutDuration ro⟩

/-- The outputs that a step asks for, in order. -/
def Step.outputs (p : Program) : Step → List Output
  | .play ch name none => [p.playOutput ch name .auto]
  | .play ch name (some t) => [p.playOutput ch name (.fixed t)]
  | .trigger ros _ t _ => ros.map (p.readoutOutput t)
  | _ => []

/-- The step leaves the keeping of time to the program: it does not put the channels
back at zero without moving the origin, and it is no instruction of the caller's own
choice. -/
def Step.KeepsTime : Step → Prop
  | .resetTimeline | .instr .. => False
  | _ => True

/-! ### The origin -/

/-- By how much an instruction moves the origin. -/
def Instr.syncTime (i : Instr) : ℤ :=
  if i.mnemonic = "synci" then
    match i.operands with
    | [.value t] => t
    | _ => 0
  else 0

/-- The time that times of the next instructions count from. -/
def Program.origin (p : Program) : ℤ := (p.lines.map fun l => l.instr.syncTime).sum

theorem Program.origin_of_lines {p q : Program} {new : List Line} (h : q.lines = p.lines ++ new) :
    q.origin = p.origin + (new.map fun l => l.instr.syncTime).sum := by
  unfold origin
  rw [h, List.map_append, List.sum_append]

/-- Appending other instructions leaves the origin where it is. -/
theorem Edits.origin_eq {A : Change → Prop} {p q : Program} (h : Edits A p q)
    (hA : ∀ i, A (.append i) → i.syncTime = 0) : q.origin = p.origin := by
  obtain ⟨new, hnew, hall⟩ := h.exists_lines
  have hzero : (new.map fun l => l.instr.syncTime) = List.replicate new.length 0 := by
    refine List.eq_replicate_iff.mpr ⟨List.length_map .., ?_⟩
    rintro _ ht
    obtain ⟨l, hl, rfl⟩ := List.mem_map.mp ht
    exact hA _ (hall l hl)
  rw [Program.origin_of_lines hnew, hzero]
  simp

/-- No step moves the origin but synchronizing, and instructions of the caller's own
choice. -/
theorem Step.Makes.syncTime_eq_zero {s : Step} {p : Program} {i : Instr} (h : s.Makes p (.append i))
    (hsync : ∀ t, s ≠ .syncAll t) (hs : s.KeepsTime) : i.syncTime = 0 := by
  cases h with
  | syncAll time => exact absurd rfl (hsync _)
  | instr => exact hs.elim
  | playLoad _ s | triggerLoad s | openLoad _ _ s | regLoad _ _ s | writeImm s => cases s <;> rfl
  | _ => rfl

/-! ### The timeline -/

/-- The change is one of the timeline. -/
def Change.IsTimed : Change → Prop
  | .schedule .. | .align .. | .reset => True
  | _ => False

theorem Edits.timeline_eq {A : Change → Prop} {p q : Program} (h : Edits A p q) (hA : ∀ c, A c → ¬ c.IsTimed) :
    q.timeline = p.timeline := by
  refine h.preserves (P := fun q => q.timeline = p.timeline) rfl fun c q r hc he ih => ?_
  cases he with
  | schedule | align | reset => exact absurd trivial (hA _ hc)
  | _ => exact ih

namespace Build

variable {α : Type} {p q : Program}

/-- The step does nothing but append instructions. -/
def AppendsOnly (b : Build α) (p : Program) : Prop := Within (fun c => ∃ i, c = .append i) b p

theorem AppendsOnly.timeline_eq {b : Build α} {a : α} (h : AppendsOnly b p) (hb : b.apply p = (.ok a, q)) :
    q.timeline = p.timeline := by
  have hedits : Edits (fun c => ∃ i, c = .append i) p (b.apply p).2 := h
  rw [hb] at hedits
  refine hedits.timeline_eq ?_
  rintro _ ⟨i, rfl⟩ htimed
  exact htimed

/-- A pulse that is played makes its call of the scheduler. -/
theorem timeline_of_play {ch : ℕ} {name : String} {time : Time} {start : ℕ}
    (h : (play ch name time).apply p = (.ok start, q)) :
    p.timeline.outcome (p.playOutput ch name time) = .ok start ∧
      q.timeline = p.timeline.reserve (p.playOutput ch name time) := by
  unfold play at h
  rw [apply_get_bind] at h
  obtain ⟨lib, -, h⟩ := apply_lift_bind_eq_ok_iff.mp h
  cases he : p.findPulse? ch name with
  | none => simp [he] at h
  | some e =>
    simp only [he] at h
    obtain ⟨duration, hduration, h⟩ := apply_lift_bind_eq_ok_iff.mp h
    obtain ⟨t, p₁, hschedule, h⟩ := apply_bind_eq_ok_iff.mp h
    obtain ⟨_, p₂, hsegments, h⟩ := apply_bind_eq_ok_iff.mp h
    cases h
    have houtput : p.playOutput ch name time = ⟨.gen ch, time, duration⟩ := by
      simp [Program.playOutput, Program.pulseDuration, he, hduration, Except.toOption]
    have hcall := schedule_apply ⟨.gen ch, time, duration⟩ p
    rw [hschedule, ← houtput] at hcall
    obtain ⟨hstart, hp₁⟩ := Prod.mk.inj hcall
    have honly : AppendsOnly (playSegments ch name start 0 (e.waves.zip e.pulse.offsets)) p₁ :=
      playSegments_within (fun _ _ => ⟨_, rfl⟩) 0 fun _ _ => ⟨_, rfl⟩
    exact ⟨hstart.symm, by rw [honly.timeline_eq hsegments, hp₁]⟩

/-- A readout that is triggered makes its call of the scheduler, and that is all. -/
theorem triggerReadout_eq_ok {t ro : ℕ} {port : TriggerPort} (h : (triggerReadout t ro).apply p = (.ok port, q)) :
    (∃ start, p.timeline.outcome (p.readoutOutput t ro) = .ok start) ∧
      q = { p with timeline := p.timeline.reserve (p.readoutOutput t ro) } := by
  unfold triggerReadout at h
  rw [apply_get_bind] at h
  obtain ⟨r, -, h⟩ := apply_lift_bind_eq_ok_iff.mp h
  obtain ⟨length, _, hlength, h⟩ := apply_bind_eq_ok_iff.mp h
  unfold declaredLength at hlength
  rw [apply_get_bind] at hlength
  cases hdeclared : (p.readoutLengths[ro]?).join with
  | none => simp [hdeclared] at hlength
  | some length' =>
    simp only [hdeclared, apply_pure] at hlength
    cases hlength
    obtain ⟨duration, hduration, h⟩ := apply_lift_bind_eq_ok_iff.mp h
    obtain ⟨_, p₁, hschedule, h⟩ := apply_bind_eq_ok_iff.mp h
    cases h
    obtain ⟨t', hschedule⟩ := apply_discard_eq_ok_iff.mp hschedule
    have houtput : p.readoutOutput t ro = ⟨.readout ro, .fixed t, duration⟩ := by
      simp [Program.readoutOutput, Program.readoutDuration, hdeclared, hduration, Except.toOption]
    have hcall := schedule_apply ⟨.readout ro, .fixed t, duration⟩ p
    rw [hschedule, ← houtput] at hcall
    obtain ⟨hstart, hq⟩ := Prod.mk.inj hcall
    exact ⟨⟨t', hstart.symm⟩, hq⟩

theorem mapM_triggerReadout_eq_ok {t : ℕ} {ros : List ℕ} {ports : List TriggerPort}
    (h : (ros.mapM (triggerReadout t)).apply p = (.ok ports, q)) :
    p.timeline.Meets (ros.map (p.readoutOutput t)) ∧
      q.timeline = p.timeline.reserveAll (ros.map (p.readoutOutput t)) := by
  induction ros generalizing p ports with
  | nil =>
    cases h
    exact ⟨trivial, rfl⟩
  | cons ro ros ih =>
    rw [List.mapM_cons] at h
    obtain ⟨port, p₁, hro, h⟩ := apply_bind_eq_ok_iff.mp h
    obtain ⟨rest, p₂, hros, h⟩ := apply_bind_eq_ok_iff.mp h
    cases h
    obtain ⟨hstart, hp₁⟩ := triggerReadout_eq_ok hro
    -- lengths and board stay as they are, so the further durations are those of the first program
    rw [hp₁] at hros
    obtain ⟨hmeets, htimeline⟩ := ih hros
    exact ⟨⟨hstart, hmeets⟩, htimeline⟩

theorem timeline_of_trigger {ros pins : List ℕ} {t width : ℕ}
    (h : (trigger ros pins t width).apply p = (.ok (), q)) :
    p.timeline.Meets (ros.map (p.readoutOutput t)) ∧
      q.timeline = p.timeline.reserveAll (ros.map (p.readoutOutput t)) := by
  unfold trigger at h
  obtain ⟨readoutPorts, p₁, hros, h⟩ := apply_bind_eq_ok_iff.mp h
  obtain ⟨pinPorts, p₂, hpins, h⟩ := apply_bind_eq_ok_iff.mp h
  have hpinsOnly : AppendsOnly (pins.mapM fun k => do liftM ((← get).board.pin k)) p₁ :=
    .mapM fun _ _ _ => .get_bind (.lift _)
  have hfireOnly : AppendsOnly (firePorts (readoutPorts ++ pinPorts) t width) p₂ :=
    firePorts_within (fun _ _ => ⟨_, rfl⟩) (fun _ _ _ => ⟨_, rfl⟩) fun _ _ _ _ _ => ⟨_, rfl⟩
  rw [hfireOnly.timeline_eq h, hpinsOnly.timeline_eq hpins]
  exact mapM_triggerReadout_eq_ok hros

theorem align_eq_ok {chs : List Channel} (h : (align chs).apply p = (.ok (), q)) :
    p.timeline.align chs = .ok q.timeline := by
  unfold align at h
  rw [apply_get_bind] at h
  obtain ⟨tl, htl, h⟩ := apply_lift_bind_eq_ok_iff.mp h
  cases h
  exact htl

/-- Synchronizing moves the origin past the latest channel by `t`, with an instruction
unless that is where it stands. -/
theorem syncAll_eq_ok {t : ℕ} (h : (syncAll t).apply p = (.ok (), q)) :
    q.timeline = p.timeline.reset ∧ q.origin = p.origin + (p.timeline.horizon true true + t : ℕ) := by
  unfold syncAll at h
  rw [apply_get_bind] at h
  obtain ⟨total, htotal, h⟩ := apply_lift_bind_eq_ok_iff.mp h
  obtain ⟨-, rfl⟩ := addTime_eq_ok_iff.mp htotal
  split at h
  · obtain ⟨v, hv, h⟩ := apply_lift_bind_eq_ok_iff.mp h
    rw [timeValue_eq_ok hv] at h
    cases h
    exact ⟨rfl, (Program.origin_of_lines rfl).trans (by simp [Instr.syncTime])⟩
  · cases h
    have hzero : p.timeline.horizon true true + t = 0 := by omega
    exact ⟨rfl, by rw [hzero]; simp [Program.origin]⟩

end Build

/-- What a step that succeeds does to the timeline and to the origin: it makes its
calls of the scheduler, all of which succeed, or it aligns channels, or it moves the
origin past all of them. -/
theorem Step.clock_cases {s : Step} {p q : Program} (hs : s.KeepsTime) (h : s.apply.apply p = (.ok (), q)) :
    (p.timeline.Meets (s.outputs p) ∧
        q.timeline = p.timeline.reserveAll (s.outputs p) ∧ q.origin = p.origin) ∨
      (∃ chs, s.outputs p = [] ∧ p.timeline.align chs = .ok q.timeline ∧ q.origin = p.origin) ∨
      ∃ t, s = .syncAll t ∧ q.timeline = p.timeline.reset ∧
        q.origin = p.origin + (p.timeline.horizon true true + t : ℕ) := by
  have hedits := s.edits p
  rw [h] at hedits
  have horigin : (∀ t, s ≠ .syncAll t) → q.origin = p.origin := fun hsync =>
    hedits.origin_eq fun i hi => hi.syncTime_eq_zero hsync hs
  cases s with
  | play ch name t =>
    have hplay : ∃ start time, (Build.play ch name time).apply p = (.ok start, q) ∧
        (Step.play ch name t).outputs p = [p.playOutput ch name time] := by
      cases t with
      | none =>
        obtain ⟨start, hstart⟩ := Build.apply_discard_eq_ok_iff.mp h
        exact ⟨start, _, hstart, rfl⟩
      | some t =>
        obtain ⟨start, hstart⟩ := Build.apply_discard_eq_ok_iff.mp h
        exact ⟨start, _, hstart, rfl⟩
    obtain ⟨start, time, hplay, houtputs⟩ := hplay
    obtain ⟨houtcome, htimeline⟩ := Build.timeline_of_play hplay
    rw [houtputs]
    exact Or.inl ⟨⟨⟨start, houtcome⟩, trivial⟩, htimeline, horigin (by simp)⟩
  | trigger =>
    obtain ⟨hmeets, htimeline⟩ := Build.timeline_of_trigger h
    exact Or.inl ⟨hmeets, htimeline, horigin (by simp)⟩
  | align => exact Or.inr (Or.inl ⟨_, rfl, Build.align_eq_ok h, horigin (by simp)⟩)
  | syncAll t => exact Or.inr (Or.inr ⟨t, rfl, Build.syncAll_eq_ok h⟩)
  | resetTimeline | instr => exact hs.elim
  | _ =>
    refine Or.inl ⟨trivial, hedits.timeline_eq ?_, horigin (by simp)⟩
    intro c hc htimed
    cases hc <;> exact htimed

end PulseAsm
