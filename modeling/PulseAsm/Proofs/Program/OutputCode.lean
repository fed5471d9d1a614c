import PulseAsm.Proofs.Program.Blocks
import PulseAsm.Proofs.Program.Outputs

/-!
# The code of outputs

What playing and triggering append to a program. A pulse gives a block for each of its
segments: the time of the segment is loaded, and then its row of the wave table is played
(`Build.Plays`). A trigger loads its time and writes the masks of the data ports, and does
so again with its end and with zeros (`Build.Triggers`); markers for pulsed ports follow.

A pulse that cannot be played to its end leaves the blocks of the segments before.
-/

namespace PulseAsm

/-! ### Instructions that are appended -/

/-- One program is another with instructions appended, and all else as it was. -/
def Program.Adds (p q : Program) (is : List Instr) : Prop :=
  ∃ (new : List Line) (next : ℕ), new.map (·.instr) = is ∧
    q = { p with lines := p.lines ++ new, nextAddr := next }

namespace Program.Adds

variable {p q r : Program} {is js : List Instr}

theorem refl (p : Program) : p.Adds p [] := ⟨[], p.nextAddr, rfl, by simp⟩

theorem push (p : Program) (i : Instr) (slots : ℕ) (comment : Option String) :
    p.Adds (p.push i slots comment) [i] := ⟨[_], _, rfl, rfl⟩

theorem trans (h₁ : p.Adds q is) (h₂ : q.Adds r js) : p.Adds r (is ++ js) := by
  obtain ⟨new, next, rfl, rfl⟩ := h₁
  obtain ⟨new', next', rfl, rfl⟩ := h₂
  exact ⟨new ++ new', next', List.map_append, by simp⟩

theorem board_eq (h : p.Adds q is) : q.board = p.board := by
  obtain ⟨new, next, -, rfl⟩ := h
  rfl

theorem appended_eq (h : p.Adds q is) : p.appended q = is := by
  obtain ⟨new, next, rfl, rfl⟩ := h
  exact Program.appended_eq rfl

end Program.Adds

/-- The trigger ports of readouts and output pins. -/
def Board.triggerPorts (b : Board) (ros pins : List ℕ) : List TriggerPort :=
  (ros.filterMap fun ro => (b.readouts[ro]?).map (·.trigger)) ++ pins.filterMap fun k => b.pins[k]?

theorem Board.readout_eq_ok_iff {b : Board} {ro : ℕ} {r : Readout} :
    b.readout ro = .ok r ↔ b.readouts[ro]? = some r := by
  unfold readout
  cases b.readouts[ro]? <;> simp

theorem Board.pin_eq_ok_iff {b : Board} {k : ℕ} {port : TriggerPort} : b.pin k = .ok port ↔ b.pins[k]? = some port := by
  unfold pin
  cases b.pins[k]? <;> simp

theorem Board.genCycles_eq_ok {b : Board} {ch cycles n : ℕ} (h : b.genCycles ch cycles = .ok n) :
    ∃ g, b.gens[ch]? = some g ∧ n = b.timingCycles g.fabricClock cycles := by
  obtain ⟨g, hg, h⟩ := bind_eq_ok_iff.mp h
  exact ⟨g, gen_eq_ok_iff.mp hg, (Except.ok.inj h).symm⟩

namespace Build

variable {α β : Type} {p q : Program}

theorem adds_of_load {page reg n : ℕ} {v : ℤ} (h : (load page reg v).apply p = (.ok n, q)) :
    ∃ steps, loadSteps v = .ok steps ∧ p.Adds q (steps.map (loadInstr page reg)) := by
  obtain ⟨steps, new, hsteps, -, hnew, -, hq⟩ := lines_of_load h
  exact ⟨steps, hsteps, new, _, hnew, hq⟩

theorem eq_of_load_error {page reg : ℕ} {v : ℤ} {e : Error} (h : (discard (load page reg v)).apply p = (.error e, q)) :
    q = p := by
  rw [apply_discard] at h
  rcases load_cases page reg v p with ⟨-, e', hload⟩ | ⟨-, n, p₁, hload⟩
  · rw [hload] at h
    exact (Prod.mk.inj h).2.symm
  · rw [hload] at h
    cases (Prod.mk.inj h).1

/-- A walk appends what each of its members does. -/
theorem adds_of_forM {l : List α} {f : α → Build PUnit} {code : α → List Instr}
    (hf : ∀ a ∈ l, ∀ p q, (f a).apply p = (.ok (), q) → p.Adds q (code a))
    (h : (l.forM f).apply p = (.ok (), q)) : p.Adds q (l.flatMap code) := by
  induction l generalizing p with
  | nil =>
    cases h
    exact .refl _
  | cons a l ih =>
    rw [List.forall_mem_cons] at hf
    rw [apply_forM_cons] at h
    obtain ⟨_, p₁, ha, hl⟩ := apply_bind_eq_ok_iff.mp h
    rw [List.flatMap_cons]
    exact (hf.1 p p₁ ha).trans (ih hf.2 hl)

/-! ### Pulses -/

/-- The code that plays segments of a pulse from a start on; a segment is given by its row
of the wave table and its offset in cycles of the generator. -/
inductive Plays (board : Board) (ch start : ℕ) : List (ℕ × ℕ) → List Instr → Prop where
  | nil : Plays board ch start [] []
  | cons {index offset cycles : ℕ} {steps : List LoadStep} {segments : List (ℕ × ℕ)} {is : List Instr}
      (hcycles : board.genCycles ch offset = .ok cycles) (hsteps : loadSteps (start + cycles : ℕ) = .ok steps)
      (hrest : Plays board ch start segments is) :
      Plays board ch start ((index, offset) :: segments)
        (steps.map (loadInstr (PulseRegs.ofGen ch).page (PulseRegs.ofGen ch).time) ++ playInstr ch index :: is)

theorem append_playInstr_apply (ch index : ℕ) (comment : Option String) (p : Program) :
    (append "wseti" [.value ch, .value (PulseRegs.ofGen ch).page, .value (PulseRegs.ofGen ch).time, .value index]
      comment).apply p = (.ok (), p.push (playInstr ch index) 1 comment) := rfl

/-- The segments that are played are the first ones, and all of them unless there is an
error. -/
theorem adds_of_playSegments {ch start k : ℕ} {name : String} {segments : List (ℕ × ℕ)} {res : Except Error Unit}
    (h : (playSegments ch name start k segments).apply p = (res, q)) :
    ∃ played is, played <+: segments ∧ (res = .ok () → played = segments) ∧ Plays p.board ch start played is ∧
      p.Adds q is := by
  induction segments generalizing k p with
  | nil =>
    cases h
    exact ⟨[], [], List.prefix_rfl, fun _ => rfl, .nil, .refl _⟩
  | cons segment rest ih =>
    obtain ⟨index, offset⟩ := segment
    have hnone : ∀ e, res = .error e → q = p → ∃ played is, played <+: (index, offset) :: rest ∧
        (res = .ok () → played = (index, offset) :: rest) ∧ Plays p.board ch start played is ∧ p.Adds q is := by
      rintro e rfl rfl
      exact ⟨[], [], List.nil_prefix, fun hres => (nomatch hres), .nil, .refl _⟩
    unfold playSegments at h
    rw [apply_get_bind] at h
    rcases apply_lift_bind_cases h with ⟨e, -, hres, hq⟩ | ⟨cycles, hcycles, h⟩
    · exact hnone e hres hq
    rcases apply_lift_bind_cases h with ⟨e, -, hres, hq⟩ | ⟨t, ht, h⟩
    · exact hnone e hres hq
    obtain ⟨-, rfl⟩ := addTime_eq_ok_iff.mp ht
    rcases apply_lift_bind_cases h with ⟨e, -, hres, hq⟩ | ⟨v, hv, h⟩
    · exact hnone e hres hq
    obtain rfl := timeValue_eq_ok hv
    rcases apply_bind_cases h with ⟨e, hload, hres⟩ | ⟨_, p₁, hload, h⟩
    · exact hnone e hres (eq_of_load_error hload)
    rw [apply_bind, append_playInstr_apply] at h
    -- the block of this segment is complete, whatever becomes of the rest
    obtain ⟨n, hload⟩ := apply_discard_eq_ok_iff.mp hload
    obtain ⟨steps, hsteps, hadds⟩ := adds_of_load hload
    obtain ⟨played, is, hprefix, hall, hplays, hrest⟩ := ih h
    have hboard : ∀ comment, (p₁.push (playInstr ch index) 1 comment).board = p.board :=
      fun _ => hadds.board_eq
    rw [hboard] at hplays
    refine ⟨(index, offset) :: played, _, List.cons_prefix_cons.mpr ⟨rfl, hprefix⟩, fun hres => ?_,
      .cons hcycles hsteps hplays, hadds.trans ((Program.Adds.push p₁ _ 1 _).trans hrest)⟩
    rw [hall hres]

/-- Playing appends nothing, or the code of the first segments of the pulse, and that of all
of them if it succeeds. -/
theorem code_of_play {ch : ℕ} {name : String} {time : Time} {res : Except Error ℕ}
    (h : (play ch name time).apply p = (res, q)) :
    (p.appended q = [] ∧ ∃ e, res = .error e) ∨
      ∃ e g start played, p.findPulse? ch name = some e ∧ p.board.gens[ch]? = some g ∧
        played <+: e.waves.zip e.pulse.offsets ∧
        (∀ t, res = .ok t → t = start ∧ played = e.waves.zip e.pulse.offsets) ∧
        Plays p.board ch start played (p.appended q) ∧ ∃ timeline, { p with timeline }.Adds q (p.appended q) := by
  have hnone : ∀ e, res = .error e → (∃ timeline, q = { p with timeline }) →
      p.appended q = [] ∧ ∃ e, res = .error e := by
    rintro e rfl ⟨timeline, rfl⟩
    exact ⟨Program.appended_eq (List.append_nil _).symm, e, rfl⟩
  unfold play at h
  rw [apply_get_bind] at h
  rcases apply_lift_bind_cases h with ⟨e, -, hres, hq⟩ | ⟨lib, -, h⟩
  · exact Or.inl (hnone e hres ⟨p.timeline, hq⟩)
  cases hfind : p.findPulse? ch name with
  | none =>
    rw [hfind] at h
    obtain ⟨hres, hq⟩ := Prod.mk.inj h
    exact Or.inl (hnone _ hres.symm ⟨p.timeline, hq.symm⟩)
  | some e =>
    rw [hfind] at h
    rcases apply_lift_bind_cases h with ⟨e', -, hres, hq⟩ | ⟨duration, hduration, h⟩
    · exact Or.inl (hnone e' hres ⟨p.timeline, hq⟩)
    obtain ⟨g, hg, -⟩ := Board.genCycles_eq_ok hduration
    have hschedule := schedule_apply ⟨.gen ch, time, duration⟩ p
    rcases apply_bind_cases h with ⟨e', hcall, hres⟩ | ⟨start, p₁, hcall, h⟩
    · obtain ⟨-, hq⟩ := Prod.mk.inj (hschedule.symm.trans hcall)
      exact Or.inl (hnone e' hres ⟨_, hq.symm⟩)
    obtain ⟨-, rfl⟩ := Prod.mk.inj (hschedule.symm.trans hcall)
    rcases apply_bind_cases h with ⟨e', hrun, hres⟩ | ⟨_, q', hrun, h⟩
    · obtain ⟨played, is, hprefix, -, hplays, hadds⟩ := adds_of_playSegments hrun
      obtain rfl : p.appended q = is := hadds.appended_eq
      refine Or.inr ⟨e, g, start, played, rfl, hg, hprefix, fun t ht => ?_, hplays, _, hadds⟩
      rw [hres] at ht
      cases ht
    · obtain ⟨rfl, rfl⟩ := Prod.mk.inj h
      obtain ⟨played, is, hprefix, hall, hplays, hadds⟩ := adds_of_playSegments hrun
      obtain rfl : p.appended q' = is := hadds.appended_eq
      exact Or.inr ⟨e, g, start, played, rfl, hg, hprefix, fun t ht => ⟨(Except.ok.inj ht).symm, hall rfl⟩, hplays, _,
        hadds⟩

/-! ### Triggers -/

/-- The code that writes masks to data ports at a time. -/
def Writes (t : ℕ) (masks : List (ℕ × ℕ)) (is : List Instr) : Prop :=
  ∃ steps, loadSteps (t : ℕ) = .ok steps ∧
    is = steps.map (loadInstr triggerPage triggerTimeReg) ++ masks.map fun e => portInstr e.1 e.2

/-- The code that sets and clears data ports: there is none if no port is asked for. -/
inductive Triggers (t width : ℕ) : List (ℕ × ℕ) → List Instr → Prop where
  | nil : Triggers t width [] []
  | cons {e : ℕ × ℕ} {masks : List (ℕ × ℕ)} {up down : List Instr} (hup : Writes t (e :: masks) up)
      (hdown : Writes (t + width) ((e :: masks).map fun e => (e.1, 0)) down) : Triggers t width (e :: masks) (up ++ down)

theorem adds_of_writePorts {t : ℕ} {masks : List (ℕ × ℕ)} (h : (writePorts t masks).apply p = (.ok (), q)) :
    ∃ is, Writes t masks is ∧ p.Adds q is := by
  unfold writePorts at h
  obtain ⟨_, p₁, hload, h⟩ := apply_bind_eq_ok_iff.mp h
  obtain ⟨n, hload⟩ := apply_discard_eq_ok_iff.mp hload
  obtain ⟨steps, hsteps, hadds⟩ := adds_of_load hload
  have hports : p₁.Adds q (masks.flatMap fun e => [portInstr e.1 e.2]) := by
    refine adds_of_forM (fun e _ p q he => ?_) h
    obtain ⟨-, rfl⟩ := Prod.mk.inj he
    exact .push p (portInstr e.1 e.2) 1 _
  rw [← List.map_eq_flatMap] at hports
  exact ⟨_, ⟨steps, hsteps, rfl⟩, hadds.trans hports⟩

theorem adds_of_pulsePort {t width port : ℕ} (h : (pulsePort t width port).apply p = (.ok (), q)) :
    p.Adds q [markerInstr port 1 t, markerInstr port 0 (t + width)] := by
  obtain ⟨-, rfl⟩ := Prod.mk.inj h
  exact (Program.Adds.push p (markerInstr port 1 t) 1 none).trans (.push _ (markerInstr port 0 (t + width)) 1 none)

/-- Data ports are written first, and then each pulsed port is set and cleared. -/
theorem adds_of_firePorts {ports : List TriggerPort} {t width : ℕ}
    (h : (firePorts ports t width).apply p = (.ok (), q)) :
    ∃ is, Triggers t width (portMasks ports) is ∧
      p.Adds q (is ++ (pulsedPorts ports).flatMap fun port =>
        [markerInstr port 1 t, markerInstr port 0 (t + width)]) := by
  have hmarkers : ∀ p₁ : Program, ((pulsedPorts ports).forM (pulsePort t width)).apply p₁ = (.ok (), q) →
      p₁.Adds q ((pulsedPorts ports).flatMap fun port => [markerInstr port 1 t, markerInstr port 0 (t + width)]) :=
    fun _ h => adds_of_forM (fun _ _ _ _ hport => adds_of_pulsePort hport) h
  unfold firePorts at h
  cases hmasks : portMasks ports with
  | nil =>
    rw [hmasks] at h
    exact ⟨[], .nil, hmarkers p h⟩
  | cons e masks =>
    rw [hmasks] at h
    obtain ⟨_, p₁, hup, h⟩ := apply_bind_eq_ok_iff.mp h
    obtain ⟨_, p₂, hdown, h⟩ := apply_bind_eq_ok_iff.mp h
    obtain ⟨up, hup, haddsUp⟩ := adds_of_writePorts hup
    obtain ⟨down, hdown, haddsDown⟩ := adds_of_writePorts hdown
    exact ⟨up ++ down, .cons hup hdown, (haddsUp.trans haddsDown).trans (hmarkers p₂ h)⟩

/-- If every result is a function of the member, partial at most, then so is the list. -/
theorem filterMap_of_mapM {P : Program → Prop} {g : α → Option β} {l : List α} {f : α → Build β} {bs : List β}
    (hf : ∀ a ∈ l, ∀ p b q, P p → (f a).apply p = (.ok b, q) → P q ∧ g a = some b) (hp : P p)
    (h : (l.mapM f).apply p = (.ok bs, q)) : P q ∧ bs = l.filterMap g := by
  induction l generalizing p bs with
  | nil =>
    cases h
    exact ⟨hp, rfl⟩
  | cons a l ih =>
    rw [List.forall_mem_cons] at hf
    rw [List.mapM_cons] at h
    obtain ⟨b, p₁, ha, h⟩ := apply_bind_eq_ok_iff.mp h
    obtain ⟨rest, p₂, hl, h⟩ := apply_bind_eq_ok_iff.mp h
    cases h
    obtain ⟨hp₁, hb⟩ := hf.1 p b p₁ hp ha
    obtain ⟨hq, rfl⟩ := ih hf.2 hp₁ hl
    exact ⟨hq, (List.filterMap_cons_some hb).symm⟩

theorem trigger_of_triggerReadout {t ro : ℕ} {port : TriggerPort} (h : (triggerReadout t ro).apply p = (.ok port, q)) :
    (p.board.readouts[ro]?).map (·.trigger) = some port := by
  unfold triggerReadout at h
  rw [apply_get_bind] at h
  obtain ⟨r, hr, h⟩ := apply_lift_bind_eq_ok_iff.mp h
  obtain ⟨length, _, -, h⟩ := apply_bind_eq_ok_iff.mp h
  obtain ⟨duration, _, -, h⟩ := apply_bind_eq_ok_iff.mp h
  obtain ⟨_, _, -, h⟩ := apply_bind_eq_ok_iff.mp h
  cases h
  rw [Board.readout_eq_ok_iff.mp hr]
  rfl

/-- A trigger writes the data ports of its readouts and pins, and then pulses the others. -/
theorem code_of_trigger {ros pins : List ℕ} {t width : ℕ} (h : (trigger ros pins t width).apply p = (.ok (), q)) :
    ∃ is, Triggers t width (portMasks (p.board.triggerPorts ros pins)) is ∧
      p.appended q = is ++ (pulsedPorts (p.board.triggerPorts ros pins)).flatMap (fun port =>
        [markerInstr port 1 t, markerInstr port 0 (t + width)]) ∧
      ∃ timeline, { p with timeline }.Adds q (p.appended q) := by
  unfold trigger at h
  obtain ⟨readoutPorts, p₁, hros, h⟩ := apply_bind_eq_ok_iff.mp h
  obtain ⟨pinPorts, p₂, hpins, h⟩ := apply_bind_eq_ok_iff.mp h
  -- the calls of the scheduler leave the board as it is, so all ports are those of the first program
  have hreadout : ∀ ro ∈ ros, ∀ p' port q, (∃ timeline, p' = { p with timeline }) →
      (triggerReadout t ro).apply p' = (.ok port, q) →
      (∃ timeline, q = { p with timeline }) ∧ (p.board.readouts[ro]?).map (·.trigger) = some port := by
    rintro ro - _ port q ⟨timeline, rfl⟩ hro
    have htrigger := trigger_of_triggerReadout hro
    obtain ⟨-, hq⟩ := triggerReadout_eq_ok hro
    exact ⟨⟨_, hq⟩, htrigger⟩
  have hpin : ∀ k ∈ pins, ∀ p' port q, (∃ timeline, p' = { p with timeline }) →
      (do liftM ((← get).board.pin k) : Build TriggerPort).apply p' = (.ok port, q) →
      (∃ timeline, q = { p with timeline }) ∧ p.board.pins[k]? = some port := by
    rintro k - _ port q ⟨timeline, rfl⟩ hk
    rw [apply_get_bind, apply_lift] at hk
    obtain ⟨hport, rfl⟩ := Prod.mk.inj hk
    exact ⟨⟨timeline, rfl⟩, Board.pin_eq_ok_iff.mp hport⟩
  obtain ⟨hp₁, rfl⟩ := filterMap_of_mapM hreadout ⟨p.timeline, rfl⟩ hros
  obtain ⟨⟨timeline, rfl⟩, rfl⟩ := filterMap_of_mapM hpin hp₁ hpins
  obtain ⟨is, htriggers, hadds⟩ := adds_of_firePorts h
  obtain happended : p.appended q = _ := hadds.appended_eq
  exact ⟨is, htriggers, happended, timeline, happended ▸ hadds⟩

end Build

end PulseAsm
