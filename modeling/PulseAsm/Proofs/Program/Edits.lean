import PulseAsm.Program.Script
import PulseAsm.Proofs.Outcome
import PulseAsm.Proofs.Program.Build
import PulseAsm.Proofs.Program.Ports
import PulseAsm.Proofs.Registers
import PulseAsm.Proofs.Wave
import Mathlib.Data.Int.Notation
import Mathlib.Logic.Relation

/-!
# What building steps do

Every building step, whether it succeeds or fails, comes down to a sequence of
small edits of the program: an instruction appended, a label bound, a register
handed out, and so on. An edit is labelled by the change that it makes
(`Change`), `Edit` says when a change is possible and what it leaves, and `Edits`
strings edits together whose changes are of a given kind.

`Step.Makes` says which changes a step can make to a program, with what is known of
their operands: the register was handed out, the wave belongs to a stored pulse, the
port is one of the board. `Step.edits` proves it. So a property that no edit breaks
holds of every program that can be built (`Reachable.induction`), and what a step
cannot do is read off `Step.Makes`.
-/

namespace PulseAsm

open Relation

/-- A change to a program. -/
inductive Change where
  /-- An instruction is appended. -/
  | append (i : Instr)
  /-- A label is bound to the next address. -/
  | bind (name : String)
  /-- A register is handed out. -/
  | allocate (reg : Register)
  /-- A loop is opened. -/
  | enter (reg : Register)
  /-- The innermost loop is closed. -/
  | leave (reg : Register)
  /-- An envelope is added. -/
  | envelope (ch : ℕ) (name : String)
  /-- A wave is added. -/
  | wave (name : String) (w : Wave)
  /-- A pulse is stored. -/
  | pulse (e : StoredPulse)
  /-- A duration is reserved on a channel. -/
  | schedule (ch : Channel) (time : Time) (duration : ℕ)
  /-- Channels are brought to a common time. -/
  | align (chs : List Channel)
  /-- All channels are put back at time zero. -/
  | reset
  /-- The length of a readout is declared. -/
  | declare (ro length : ℕ)

/-- The edits: what a change requires of the program and what program it leaves. -/
inductive Edit : Change → Program → Program → Prop where
  | append {p : Program} {i : Instr} {d : Descriptor} (comment : Option String)
      (hd : Descriptor.ofMnemonic? i.mnemonic = some d) (hlen : i.operands.length = d.arity) :
      Edit (.append i) p (p.push i d.slots comment)
  | bind {p : Program} {name : String} (h : p.labels.lookup name = none) :
      Edit (.bind name) p { p with labels := p.labels ++ [(name, p.nextAddr)] }
  | allocate {p : Program} {r : RegRequest} {reg : Register} {registers : RegisterFile}
      (h : p.registers.allocate r = .ok (reg, registers)) : Edit (.allocate reg) p { p with registers }
  | enter {p : Program} {reg : Register} (hreg : reg ∈ p.registers.registers)
      (hlabel : p.labels.lookup (Text.upperCase reg.name) = some p.nextAddr) :
      Edit (.enter reg) p { p with loopsOpened := p.loopsOpened + 1, loops := reg :: p.loops }
  | leave {p : Program} {reg : Register} {rest : List Register} (h : p.loops = reg :: rest) :
      Edit (.leave reg) p { p with loops := rest }
  | envelope {p : Program} {ch : ℕ} {name : String} {lib lib' : EnvelopeLibrary} {e : Envelope}
      {idata qdata : Option (List Float)} (hlib : p.library ch = .ok lib)
      (h : lib.add name idata qdata = .ok (e, lib')) :
      Edit (.envelope ch name) p { p with envelopes := p.envelopes.set ch lib' }
  | wave {p : Program} {name : String} {w : Wave} {index : ℕ} {waves : WaveTable}
      (h : p.waves.add name w = .ok (index, waves)) : Edit (.wave name w) p { p with waves }
  | pulse {p : Program} {e : StoredPulse} (h : ∀ k ∈ e.waves, k < p.waves.entries.length)
      (hnew : p.findPulse? e.ch e.name = none) : Edit (.pulse e) p { p with pulses := p.pulses ++ [e] }
  | schedule {p : Program} {ch : Channel} {time : Time} {duration t : ℕ} {timeline : Timeline}
      (h : p.timeline.schedule ch time duration = .ok (t, timeline)) :
      Edit (.schedule ch time duration) p { p with timeline }
  | align {p : Program} {chs : List Channel} {timeline : Timeline} (h : p.timeline.align chs = .ok timeline) :
      Edit (.align chs) p { p with timeline }
  | reset (p : Program) : Edit .reset p { p with timeline := p.timeline.reset }
  | declare {p : Program} {ro : ℕ} {r : Readout} (length : ℕ) (h : p.board.readout ro = .ok r) :
      Edit (.declare ro length) p { p with readoutLengths := p.readoutLengths.set ro (some length) }

/-- Edits one after the other, each making a change that `A` admits. -/
def Edits (A : Change → Prop) : Program → Program → Prop :=
  ReflTransGen fun p q => ∃ c, A c ∧ Edit c p q

theorem Edits.one {A : Change → Prop} {c : Change} {p q : Program} (hc : A c) (h : Edit c p q) : Edits A p q :=
  .single ⟨c, hc, h⟩

/-- What holds at first and survives every admitted edit holds in the end. -/
theorem Edits.preserves {A : Change → Prop} {P : Program → Prop} {p q : Program} (h : Edits A p q) (hp : P p)
    (hstep : ∀ c p q, A c → Edit c p q → P p → P q) : P q := by
  induction h with
  | refl => exact hp
  | tail _ h ih =>
    obtain ⟨c, hc, he⟩ := h
    exact hstep c _ _ hc he ih

/-- The step, done on the program, makes changes that `A` admits. -/
def Build.Within {α : Type} (A : Change → Prop) (b : Build α) (p : Program) : Prop := Edits A p (b.apply p).2

namespace Build.Within

variable {α β : Type} {A : Change → Prop} {p : Program}

theorem pure (a : α) : Within A (pure a : Build α) p := .refl

theorem throw (e : Error) : Within A (throw e : Build α) p := .refl

theorem bind {x : Build α} {f : α → Build β} (hx : Within A x p)
    (hf : ∀ a q, x.apply p = (.ok a, q) → Within A (f a) q) : Within A (x >>= f) p := by
  unfold Within at *
  rw [apply_bind]
  cases h : x.apply p with
  | mk res q =>
    rw [h] at hx
    cases res with
    | error e => exact hx
    | ok a => exact hx.trans (hf a q h)

theorem get_bind {f : Program → Build β} (hf : Within A (f p) p) : Within A (get >>= f) p := by
  unfold Within at *
  rwa [apply_get_bind]

theorem lift_bind {x : Except Error α} {f : α → Build β} (hf : ∀ a, x = .ok a → Within A (f a) p) :
    Within A ((liftM x : Build α) >>= f) p := by
  unfold Within at *
  rw [apply_lift_bind]
  cases x with
  | error e => exact .refl
  | ok a => exact hf a rfl

theorem set {q : Program} {c : Change} (hc : A c) (h : Edit c p q) : Within A (set q : Build Unit) p :=
  Edits.one hc h

theorem modify {f : Program → Program} {c : Change} (hc : A c) (h : Edit c p (f p)) :
    Within A (modify f : Build Unit) p := Edits.one hc h

theorem discard {x : Build α} (hx : Within A x p) : Within A (discard x) p := by
  unfold Within at *
  rwa [apply_discard]

theorem lift (x : Except Error α) : Within A (liftM x : Build α) p := by
  unfold Within
  rw [apply_lift]
  exact .refl

theorem forM {l : List α} {f : α → Build PUnit} (hf : ∀ a ∈ l, ∀ q, Within A (f a) q) :
    Within A (l.forM f) p := by
  induction l generalizing p with
  | nil => exact .refl
  | cons a l ih =>
    rw [List.forall_mem_cons] at hf
    exact (hf.1 p).bind fun _ q _ => ih hf.2

theorem mapM {l : List α} {f : α → Build β} (hf : ∀ a ∈ l, ∀ q, Within A (f a) q) :
    Within A (l.mapM f) p := by
  induction l generalizing p with
  | nil => exact .refl
  | cons a l ih =>
    rw [List.forall_mem_cons] at hf
    rw [List.mapM_cons]
    exact (hf.1 p).bind fun _ q _ => (ih hf.2).bind fun _ _ _ => .pure _

end Build.Within

/-! ### The building steps -/

/-- The step is one of loading some value. -/
def LoadStep.Proper (s : LoadStep) : Prop := ∃ v steps, loadSteps v = .ok steps ∧ s ∈ steps

/-- The register is handed out if it is asked for. -/
def Program.Grants (p : Program) (reg : Register) : Prop :=
  ∃ r registers, p.registers.allocate r = .ok (reg, registers)

namespace Build

variable {A : Change → Prop} {p : Program}

theorem emit_within {i : Instr} {comment : Option String} (hi : A (.append i)) : Within A (emit i comment) p := by
  unfold emit
  cases hd : Descriptor.ofMnemonic? i.mnemonic with
  | none => exact .throw _
  | some d =>
    simp only
    split
    · rename_i hlen
      exact .modify hi (.append comment hd hlen)
    · exact .throw _

theorem append_within {mnemonic : String} {operands : List Operand} {comment : Option String}
    (hi : A (.append ⟨mnemonic, operands, false⟩)) : Within A (append mnemonic operands comment) p :=
  emit_within hi

theorem label_within {name : String} (h : A (.bind name)) : Within A (label name) p := by
  refine .get_bind ?_
  cases hl : p.labels.lookup name with
  | none => exact .set h (.bind hl)
  | some a => exact .throw _

theorem label_eq_ok {name : String} {q : Program} (h : (label name).apply p = (.ok (), q)) :
    p.labels.lookup name = none ∧ q = { p with labels := p.labels ++ [(name, p.nextAddr)] } := by
  unfold label at h
  rw [apply_get_bind] at h
  cases hl : p.labels.lookup name with
  | some a => simp [hl] at h
  | none =>
    simp only [hl] at h
    cases h
    exact ⟨rfl, rfl⟩

theorem load_within {page reg : ℕ} {v : ℤ} (h : ∀ s : LoadStep, s.Proper → A (.append (loadInstr page reg s))) :
    Within A (load page reg v) p := by
  refine .lift_bind fun steps hsteps => ?_
  exact (Within.forM fun s hs _ => emit_within (h s ⟨v, steps, hsteps, hs⟩)).bind fun _ _ _ => .pure _

/-- The register that is handed out is the one that is loaded. -/
theorem newReg_within {r : RegRequest} (ha : ∀ reg, p.Grants reg → A (.allocate reg))
    (hl : ∀ reg, p.Grants reg → ∀ s : LoadStep, s.Proper → A (.append (loadInstr reg.page reg.addr s))) :
    Within A (newReg r) p := by
  refine .get_bind (.lift_bind fun ⟨reg, registers⟩ hreg => ?_)
  have hgrants : p.Grants reg := ⟨r, registers, hreg⟩
  refine (Within.set (ha reg hgrants) (.allocate hreg)).bind fun _ q _ => ?_
  cases reg.init with
  | none => exact .pure _
  | some v => exact (load_within (hl reg hgrants)).discard.bind fun _ _ _ => .pure _

theorem registers_load (page reg : ℕ) (v : ℤ) (p : Program) :
    ((load page reg v).apply p).2.registers = p.registers := by
  have hwithin : Within (fun c => ∃ i, c = .append i) (load page reg v) p := load_within fun _ _ => ⟨_, rfl⟩
  refine Edits.preserves (P := fun q => q.registers = p.registers) hwithin rfl fun c q r hc he hq => ?_
  obtain ⟨i, rfl⟩ := hc
  cases he
  exact hq

/-- What a register that is handed out does to a program. -/
theorem newReg_eq_ok {r : RegRequest} {reg : Register} {q : Program}
    (h : (newReg r).apply p = (.ok reg, q)) :
    ∃ registers, p.registers.Allocates r reg registers ∧
      (r.init = none ∧ q = { p with registers } ∨
        ∃ v n, r.init = some v ∧ (load reg.page reg.addr v).apply { p with registers } = (.ok n, q)) := by
  unfold newReg at h
  rw [apply_get_bind, apply_lift_bind] at h
  cases halloc : p.registers.allocate r with
  | error e => simp [halloc] at h
  | ok res =>
    obtain ⟨reg', registers⟩ := res
    have hreg := RegisterFile.allocates_of_allocate halloc
    simp only [halloc, hreg.init] at h
    obtain ⟨_, _, hset, h⟩ := apply_bind_eq_ok_iff.mp h
    cases hset
    cases hinit : r.init with
    | none =>
      simp only [hinit] at h
      cases h
      exact ⟨registers, hreg, Or.inl ⟨rfl, rfl⟩⟩
    | some v =>
      simp only [hinit] at h
      obtain ⟨_, _, hload, h⟩ := apply_bind_eq_ok_iff.mp h
      cases h
      obtain ⟨n, hload⟩ := apply_discard_eq_ok_iff.mp hload
      exact ⟨registers, hreg, Or.inr ⟨v, n, rfl, hload⟩⟩

/-- Loading its first value leaves the register file as it is. -/
theorem allocates_of_newReg {r : RegRequest} {reg : Register} {q : Program} (h : (newReg r).apply p = (.ok reg, q)) :
    p.registers.Allocates r reg q.registers := by
  obtain ⟨registers, halloc, ⟨-, rfl⟩ | ⟨v, n, -, hload⟩⟩ := newReg_eq_ok h
  · exact halloc
  · have hregs := registers_load reg.page reg.addr v { p with registers }
    rw [hload] at hregs
    rw [hregs]
    exact halloc

theorem openLoop_within {n : ℕ} {name : Option String} (ha : ∀ reg, p.Grants reg → A (.allocate reg))
    (hl : ∀ reg, p.Grants reg → ∀ s : LoadStep, s.Proper → A (.append (loadInstr reg.page reg.addr s)))
    (hb : ∀ label, A (.bind label)) (he : ∀ reg, A (.enter reg)) : Within A (openLoop n name) p := by
  refine .get_bind ((newReg_within ha hl).bind fun reg q hreg => ?_)
  refine (label_within (hb _)).bind fun _ q' hlabel => ?_
  have halloc := allocates_of_newReg hreg
  obtain ⟨hnone, rfl⟩ := label_eq_ok hlabel
  refine (Within.modify (he reg) (.enter ?_ ?_)).bind fun _ _ _ => .pure _
  · rw [halloc.registers]
    simp
  · have hname : reg.name = _ := halloc.name
    simp only [RegisterFile.chooseName] at hname
    rw [hname, List.lookup_append, hnone, Option.none_or, List.lookup_cons_self]

/-- The count down at the end of a loop. -/
def countDownInstr (reg : Register) : Instr where
  mnemonic := "mathi"
  operands := [.value reg.page, .value reg.addr, .value reg.addr, .op .sub, .value 1]
  updateFlags := true

/-- The branch at the end of a loop. -/
def branchInstr (reg : Register) : Instr where
  mnemonic := "jnz"
  operands := [.label (Text.upperCase reg.name)]

theorem closeLoop_within (hl : ∀ reg ∈ p.loops, A (.leave reg)) (hc : ∀ reg ∈ p.loops, A (.append (countDownInstr reg)))
    (hb : ∀ reg ∈ p.loops, A (.append (branchInstr reg))) : Within A closeLoop p := by
  refine .get_bind ?_
  cases h : p.loops with
  | nil => exact .throw _
  | cons reg rest =>
    have hmem : reg ∈ p.loops := by simp [h]
    refine (Within.set (hl reg hmem) (.leave h)).bind fun _ q _ => ?_
    exact (emit_within (hc reg hmem)).bind fun _ _ _ => append_within (hb reg hmem)

theorem addEnvelope_within {ch : ℕ} {name : String} {idata qdata : Option (List Float)}
    (h : A (.envelope ch name)) : Within A (addEnvelope ch name idata qdata) p :=
  .get_bind (.lift_bind fun _ hlib => .lift_bind fun _ hadd => .set h (.envelope hlib hadd))

theorem addGauss_within {ch : ℕ} {name : String} {sigma : Float} {length : ℕ} {top : Option Float}
    {evenLength : Bool} (h : A (.envelope ch name)) :
    Within A (addGauss ch name sigma length top evenLength) p :=
  .get_bind (.lift_bind fun _ _ => addEnvelope_within h)

theorem addTriangle_within {ch : ℕ} {name : String} {length : ℕ} {top : Option Float}
    (h : A (.envelope ch name)) : Within A (addTriangle ch name length top) p :=
  .get_bind (.lift_bind fun _ _ => addEnvelope_within h)

theorem addWaves_within {ch : ℕ} {name : String} (h : ∀ (k : ℕ) w, A (.wave s!"g{ch}_{name}_w{k}" w)) (k : ℕ)
    (ws : List Wave) : Within A (addWaves ch name k ws) p := by
  induction ws generalizing k p with
  | nil => exact .pure _
  | cons w ws ih =>
    refine .get_bind (.lift_bind fun ⟨index, waves⟩ hadd => ?_)
    refine (Within.set (h k w) (.wave hadd)).bind fun _ q _ => ?_
    exact (ih (k + 1)).bind fun _ _ _ => .pure _

theorem findPulse?_addWaves (ch : ℕ) (name : String) (k : ℕ) (ws : List Wave) (p : Program) :
    ((addWaves ch name k ws).apply p).2.findPulse? = p.findPulse? := by
  have hwithin : Within (fun c => ∃ name w, c = .wave name w) (addWaves ch name k ws) p :=
    addWaves_within (fun _ _ => ⟨_, _, rfl⟩) k ws
  refine Edits.preserves (P := fun q => q.findPulse? = p.findPulse?) hwithin rfl fun c q r hc he hq => ?_
  obtain ⟨name, w, rfl⟩ := hc
  cases he
  exact hq

/-- The indices of added waves are in the table. -/
theorem lt_of_addWaves {ch : ℕ} {name : String} {k : ℕ} {ws : List Wave} {indices : List ℕ} {q : Program}
    (h : (addWaves ch name k ws).apply p = (.ok indices, q)) :
    p.waves.entries.length ≤ q.waves.entries.length ∧ ∀ i ∈ indices, i < q.waves.entries.length := by
  induction ws generalizing k p indices with
  | nil =>
    cases h
    exact ⟨Nat.le_refl _, List.forall_mem_nil _⟩
  | cons w ws ih =>
    unfold addWaves at h
    rw [apply_get_bind, apply_lift_bind] at h
    cases hadd : p.waves.add s!"g{ch}_{name}_w{k}" w with
    | error e =>
      rw [hadd] at h
      cases h
    | ok res =>
      rw [hadd] at h
      obtain ⟨_, _, hset, h⟩ := apply_bind_eq_ok_iff.mp h
      cases hset
      obtain ⟨rest, _, hrest, h⟩ := apply_bind_eq_ok_iff.mp h
      cases h
      obtain ⟨hle, hall⟩ := ih hrest
      obtain ⟨-, hindex, hwaves⟩ := WaveTable.add_eq_ok_iff.mp hadd
      simp only [hwaves, List.length_append, List.length_singleton] at hle
      exact ⟨by omega, List.forall_mem_cons.mpr ⟨by omega, hall⟩⟩

theorem addPulse_within {ch : ℕ} {name : String} {style : Style} {params : Params}
    (hw : ∀ (k : ℕ) w, A (.wave s!"g{ch}_{name}_w{k}" w)) (hp : ∀ pulse waves, A (.pulse ⟨ch, name, pulse, waves⟩)) :
    Within A (addPulse ch name style params) p := by
  refine .get_bind (.lift_bind fun lib _ => ?_)
  cases hfind : p.findPulse? ch name with
  | some e => exact .throw _
  | none =>
    refine .lift_bind fun pulse _ => (addWaves_within hw 0 _).bind fun waves q hadd => ?_
    have hpulses := findPulse?_addWaves ch name 0 pulse.waves p
    rw [hadd] at hpulses
    exact .modify (hp pulse waves) (.pulse (lt_of_addWaves hadd).2 (hpulses ▸ hfind))

theorem schedule_within {ch : Channel} {time : Time} {duration : ℕ} (h : A (.schedule ch time duration)) :
    Within A (schedule ch time duration) p := by
  refine .get_bind (.lift_bind fun ⟨t, timeline⟩ hs => ?_)
  exact (Within.set h (.schedule hs)).bind fun _ _ _ => .pure _

/-- The instruction that plays a row of the wave table. -/
def playInstr (ch index : ℕ) : Instr where
  mnemonic := "wseti"
  operands := [.value ch, .value (PulseRegs.ofGen ch).page, .value (PulseRegs.ofGen ch).time, .value index]

theorem playSegments_within {ch : ℕ} {name : String} {start : ℕ}
    (hl : ∀ s : LoadStep, s.Proper → A (.append (loadInstr (PulseRegs.ofGen ch).page (PulseRegs.ofGen ch).time s)))
    (k : ℕ) {segments : List (ℕ × ℕ)} (hw : ∀ s ∈ segments, A (.append (playInstr ch s.1))) :
    Within A (playSegments ch name start k segments) p := by
  induction segments generalizing k p with
  | nil => exact .pure _
  | cons segment rest ih =>
    obtain ⟨index, offset⟩ := segment
    rw [List.forall_mem_cons] at hw
    refine .get_bind (.lift_bind fun cycles _ => .lift_bind fun t _ => .lift_bind fun v _ => ?_)
    refine (load_within hl).discard.bind fun _ _ _ => ?_
    exact (append_within hw.1).bind fun _ _ _ => ih (k + 1) hw.2

/-- Lengths are converted only for generators of the board. -/
theorem lt_of_genCycles {board : Board} {ch length cycles : ℕ} (h : board.genCycles ch length = .ok cycles) :
    ch < board.gens.length := by
  obtain ⟨g, hg, -⟩ := bind_eq_ok_iff.mp h
  unfold Board.gen at hg
  cases hget : board.gens[ch]? with
  | none => simp [hget] at hg
  | some g => exact (List.getElem?_eq_some_iff.mp hget).1

theorem play_within {ch : ℕ} {name : String} {time : Time}
    (hs : ∀ time duration, A (.schedule (.gen ch) time duration))
    (hl : ch < p.board.gens.length → ∀ s : LoadStep, s.Proper →
      A (.append (loadInstr (PulseRegs.ofGen ch).page (PulseRegs.ofGen ch).time s)))
    (hw : ch < p.board.gens.length → ∀ e ∈ p.pulses, ∀ index ∈ e.waves, A (.append (playInstr ch index))) :
    Within A (play ch name time) p := by
  refine .get_bind (.lift_bind fun lib _ => ?_)
  cases he : p.findPulse? ch name with
  | none => exact .throw _
  | some e =>
    refine .lift_bind fun duration hduration => (schedule_within (hs _ _)).bind fun start _ _ => ?_
    have hch := lt_of_genCycles hduration
    refine (playSegments_within (hl hch) 0 fun s hs => ?_).bind fun _ _ _ => .pure _
    exact hw hch e (List.mem_of_find?_eq_some he) s.1 (List.of_mem_zip hs).1

theorem declareReadout_within {ro length : ℕ} (h : A (.declare ro length)) :
    Within A (declareReadout ro length) p :=
  .get_bind (.lift_bind fun _ hr => .set h (.declare length hr))

theorem triggerReadout_within {t ro : ℕ} (h : ∀ duration, A (.schedule (.readout ro) (.fixed t) duration)) :
    Within A (triggerReadout t ro) p := by
  refine .get_bind (.lift_bind fun r _ => ?_)
  refine Within.bind (.get_bind ?_) fun length _ _ => ?_
  · cases (p.readoutLengths[ro]?).join with
    | none => exact .throw _
    | some length => exact .pure _
  · exact .lift_bind fun duration _ => (schedule_within (h duration)).discard.bind fun _ _ _ => .pure _

/-- The instruction that writes a mask to a data port at the trigger time. -/
def portInstr (port mask : ℕ) : Instr where
  mnemonic := "dporti"
  operands := [.value port, .value triggerPage, .value triggerTimeReg, .value mask]

/-- The instruction that sets or clears a pulsed port at a time. -/
def markerInstr (port level t : ℕ) : Instr where
  mnemonic := "trigi"
  operands := [.value port, .value level, .value t]

theorem firePorts_within {ports : List TriggerPort} {t width : ℕ}
    (hl : ∀ s : LoadStep, s.Proper → A (.append (loadInstr triggerPage triggerTimeReg s)))
    (hp : ∀ port mask, Drives ports port mask → A (.append (portInstr port mask)))
    (hm : ∀ port, .pulsed port ∈ ports → ∀ level < 2, ∀ t, A (.append (markerInstr port level t))) :
    Within A (firePorts ports t width) p := by
  have hwrite : ∀ (t : ℕ) (masks : List (ℕ × ℕ)), (∀ e ∈ masks, Drives ports e.1 e.2) → ∀ p : Program,
      Within A (writePorts t masks) p := fun t masks hmasks p =>
    (load_within hl).discard.bind fun _ _ _ => .forM fun e he _ => append_within (hp e.1 e.2 (hmasks e he))
  have hpulse : ∀ port ∈ pulsedPorts ports, ∀ p : Program, Within A (pulsePort t width port) p := fun port hport p =>
    (append_within (hm port (mem_pulsedPorts_iff.mp hport) 1 (by decide) t)).bind fun _ _ _ =>
      append_within (hm port (mem_pulsedPorts_iff.mp hport) 0 (by decide) (t + width))
  have hset := drives_portMasks ports
  have hclear : ∀ e ∈ (portMasks ports).map fun e => (e.1, 0), Drives ports e.1 e.2 :=
    List.forall_mem_map.mpr fun e he => (hset e he).zero
  unfold firePorts
  simp only
  split
  · exact .forM hpulse
  · exact (hwrite _ _ hset p).bind fun _ q _ => (hwrite _ _ hclear q).bind fun _ q _ => .forM hpulse

theorem board_of_within {α : Type} {b : Build α} (h : Within A b p) : (b.apply p).2.board = p.board := by
  refine Edits.preserves (P := fun q => q.board = p.board) h rfl fun c q r _ he hq => ?_
  cases he <;> exact hq

/-- The ports of readouts and pins are ports of the board. -/
theorem port_of_triggerReadout {t ro : ℕ} {port : TriggerPort} {q : Program}
    (h : (triggerReadout t ro).apply p = (.ok port, q)) : port ∈ p.board.ports := by
  unfold triggerReadout at h
  rw [apply_get_bind, apply_lift_bind] at h
  cases hr : p.board.readout ro with
  | error e => simp [hr] at h
  | ok r =>
    simp only [hr] at h
    obtain ⟨length, _, -, h⟩ := apply_bind_eq_ok_iff.mp h
    obtain ⟨duration, _, -, h⟩ := apply_bind_eq_ok_iff.mp h
    obtain ⟨_, _, -, h⟩ := apply_bind_eq_ok_iff.mp h
    cases h
    unfold Board.readout at hr
    cases hget : p.board.readouts[ro]? with
    | none => simp [hget] at hr
    | some r' =>
      simp only [hget, Except.ok.injEq] at hr
      subst hr
      exact List.mem_append_right _ (List.mem_map_of_mem (List.mem_of_getElem? hget))

theorem port_of_pin {board : Board} {k : ℕ} {port : TriggerPort} (h : board.pin k = .ok port) : port ∈ board.ports := by
  unfold Board.pin at h
  cases hget : board.pins[k]? with
  | none => simp [hget] at h
  | some port' =>
    simp only [hget, Except.ok.injEq] at h
    subst h
    exact List.mem_append_left _ (List.mem_of_getElem? hget)

theorem trigger_within {ros pins : List ℕ} {t width : ℕ}
    (hs : ∀ ro duration, A (.schedule (.readout ro) (.fixed t) duration))
    (hl : ∀ s : LoadStep, s.Proper → A (.append (loadInstr triggerPage triggerTimeReg s)))
    (hp : ∀ port mask, Drives p.board.ports port mask → A (.append (portInstr port mask)))
    (hm : ∀ port, .pulsed port ∈ p.board.ports → ∀ level < 2, ∀ t, A (.append (markerInstr port level t))) :
    Within A (trigger ros pins t width) p := by
  have hreadout : ∀ ro ∈ ros, ∀ p' port q, p'.board = p.board → (triggerReadout t ro).apply p' = (.ok port, q) →
      q.board = p.board ∧ port ∈ p.board.ports := by
    intro ro _ p' port q hp' h
    have hwithin : Within A (triggerReadout t ro) p' := triggerReadout_within (hs ro)
    have hq := board_of_within hwithin
    rw [h] at hq
    exact ⟨hq.trans hp', hp' ▸ port_of_triggerReadout h⟩
  have hpin : ∀ k ∈ pins, ∀ p' port q, p'.board = p.board →
      (do liftM ((← get).board.pin k) : Build TriggerPort).apply p' = (.ok port, q) →
      q.board = p.board ∧ port ∈ p.board.ports := by
    intro k _ p' port q hp' h
    rw [apply_get_bind, apply_lift] at h
    obtain ⟨hport, rfl⟩ := Prod.mk.inj h
    exact ⟨hp', hp' ▸ port_of_pin hport⟩
  -- the board stays the same from one readout or pin to the next, so all ports are its own
  refine (Within.mapM fun ro _ q => triggerReadout_within (hs ro)).bind fun readoutPorts q hros => ?_
  refine (Within.mapM fun k _ q => .get_bind (.lift _)).bind fun pinPorts r hpins => ?_
  obtain ⟨hboard, hros⟩ := forall_of_mapM (P := fun q => q.board = p.board) hreadout rfl hros
  obtain ⟨-, hpins⟩ := forall_of_mapM (P := fun q => q.board = p.board) hpin hboard hpins
  have hsub : readoutPorts ++ pinPorts ⊆ p.board.ports := by
    intro port hport
    exact (List.mem_append.mp hport).elim (hros port) (hpins port)
  exact firePorts_within hl (fun port mask h => hp port mask (h.mono hsub)) fun port h => hm port (hsub h)

theorem align_within {chs : List Channel} (h : A (.align chs)) : Within A (align chs) p :=
  .get_bind (.lift_bind fun _ ha => .set h (.align ha))

theorem resetTimeline_within (h : A .reset) : Within A resetTimeline p := .modify h (.reset p)

theorem timeValue_eq_ok {what : String} {t : ℕ} {v : ℤ} (h : timeValue what t = .ok v) : v = t := by
  unfold timeValue at h
  split at h
  · cases h
    rfl
  · cases h

theorem syncAll_within {t : ℕ} (ha : ∀ t : ℕ, A (.append ⟨"synci", [.value t], false⟩)) (hr : A .reset) :
    Within A (syncAll t) p := by
  refine .get_bind (.lift_bind fun total _ => ?_)
  split
  · refine .lift_bind fun v hv => ?_
    rw [timeValue_eq_ok hv]
    exact (append_within (ha _)).bind fun _ _ _ => resetTimeline_within hr
  · exact resetTimeline_within hr

theorem waitAll_within {t : ℕ} (ha : ∀ t : ℕ, A (.append ⟨"waiti", [.value 0, .value t], false⟩)) :
    Within A (waitAll t) p := by
  refine .get_bind (.lift_bind fun total _ => .lift_bind fun v hv => ?_)
  rw [timeValue_eq_ok hv]
  exact append_within (ha _)

end Build

/-! ### The steps of a script -/

/-- The changes that a step can make to a program. -/
inductive Step.Makes (p : Program) : Step → Change → Prop where
  | envelope {ch name idata qdata} : Makes p (.envelope ch name idata qdata) (.envelope ch name)
  | gauss {ch name sigma length top evenLength} :
      Makes p (.gauss ch name sigma length top evenLength) (.envelope ch name)
  | triangle {ch name length top} : Makes p (.triangle ch name length top) (.envelope ch name)
  | wave {ch name params} (k : ℕ) (w : Wave) : Makes p (.pulse ch name params) (.wave s!"g{ch}_{name}_w{k}" w)
  | pulse {ch name params} (pulse : Pulse) (waves : List ℕ) :
      Makes p (.pulse ch name params) (.pulse ⟨ch, name, pulse, waves⟩)
  | playTime {ch name t} (time : Time) (duration : ℕ) :
      Makes p (.play ch name t) (.schedule (.gen ch) time duration)
  | playLoad {ch name t} (hch : ch < p.board.gens.length) (s : LoadStep) (hs : s.Proper) :
      Makes p (.play ch name t)
        (.append (Build.loadInstr (PulseRegs.ofGen ch).page (PulseRegs.ofGen ch).time s))
  | playWave {ch name t} (hch : ch < p.board.gens.length) (e : StoredPulse) (he : e ∈ p.pulses) (index : ℕ)
      (hindex : index ∈ e.waves) : Makes p (.play ch name t) (.append (Build.playInstr ch index))
  | readout {ro length} : Makes p (.readout ro length) (.declare ro length)
  | triggerTime {ros pins t width} (ro duration : ℕ) :
      Makes p (.trigger ros pins t width) (.schedule (.readout ro) (.fixed t) duration)
  | triggerLoad {ros pins t width} (s : LoadStep) (hs : s.Proper) :
      Makes p (.trigger ros pins t width) (.append (Build.loadInstr triggerPage triggerTimeReg s))
  | triggerPort {ros pins t width} (port mask : ℕ) (hport : Drives p.board.ports port mask) :
      Makes p (.trigger ros pins t width) (.append (Build.portInstr port mask))
  | triggerMarker {ros pins t width} (port : ℕ) (hport : .pulsed port ∈ p.board.ports) (level : ℕ) (hlevel : level < 2)
      (time : ℕ) : Makes p (.trigger ros pins t width) (.append (Build.markerInstr port level time))
  | align {gens readouts} : Makes p (.align gens readouts) (.align (gens.map .gen ++ readouts.map .readout))
  | syncAll {t} (time : ℕ) : Makes p (.syncAll t) (.append ⟨"synci", [.value time], false⟩)
  | syncReset {t} : Makes p (.syncAll t) .reset
  | wait {t} : Makes p (.wait t) (.append ⟨"waiti", [.value 0, .value t], false⟩)
  | waitAll {t} (time : ℕ) : Makes p (.waitAll t) (.append ⟨"waiti", [.value 0, .value time], false⟩)
  | openReg {n name} (reg : Register) (hreg : p.Grants reg) : Makes p (.openLoop n name) (.allocate reg)
  | openLoad {n name} (reg : Register) (hreg : p.Grants reg) (s : LoadStep) (hs : s.Proper) :
      Makes p (.openLoop n name) (.append (Build.loadInstr reg.page reg.addr s))
  | openLabel {n name} (label : String) : Makes p (.openLoop n name) (.bind label)
  | openLoop {n name} (reg : Register) : Makes p (.openLoop n name) (.enter reg)
  | closeLoop (reg : Register) (hreg : reg ∈ p.loops) : Makes p .closeLoop (.leave reg)
  | closeCount (reg : Register) (hreg : reg ∈ p.loops) : Makes p .closeLoop (.append (Build.countDownInstr reg))
  | closeBranch (reg : Register) (hreg : reg ∈ p.loops) : Makes p .closeLoop (.append (Build.branchInstr reg))
  | label {name} : Makes p (.label name) (.bind name)
  | reg {page addr name kind init} (reg : Register) (hreg : p.Grants reg) :
      Makes p (.reg page addr name kind init) (.allocate reg)
  | regLoad {page addr name kind init} (reg : Register) (hreg : p.Grants reg) (s : LoadStep) (hs : s.Proper) :
      Makes p (.reg page addr name kind init) (.append (Build.loadInstr reg.page reg.addr s))
  | writeImm {page reg v} (s : LoadStep) (hs : s.Proper) :
      Makes p (.writeImm page reg v) (.append (Build.loadInstr page reg s))
  | instr {mnemonic operands comment} :
      Makes p (.instr mnemonic operands comment) (.append ⟨mnemonic, operands, false⟩)
  | resetTimeline : Makes p .resetTimeline .reset
  | finish : Makes p .finish (.append ⟨"end", [], false⟩)

/-- A step makes no other changes, whether it succeeds or fails. -/
theorem Step.edits (s : Step) (p : Program) : Edits (s.Makes p) p (s.apply.apply p).2 := by
  show Build.Within (s.Makes p) s.apply p
  cases s with
  | envelope => exact Build.addEnvelope_within .envelope
  | gauss => exact Build.addGauss_within .gauss
  | triangle => exact Build.addTriangle_within .triangle
  | pulse => exact .lift_bind fun _ _ => Build.addPulse_within .wave .pulse
  | play ch name t =>
    cases t with
    | none => exact (Build.play_within .playTime .playLoad .playWave).discard
    | some t => exact (Build.play_within .playTime .playLoad .playWave).discard
  | readout => exact Build.declareReadout_within .readout
  | trigger => exact Build.trigger_within .triggerTime .triggerLoad .triggerPort .triggerMarker
  | align => exact Build.align_within .align
  | syncAll => exact Build.syncAll_within .syncAll .syncReset
  | wait => exact Build.append_within .wait
  | waitAll => exact Build.waitAll_within .waitAll
  | openLoop => exact (Build.openLoop_within .openReg .openLoad .openLabel .openLoop).discard
  | closeLoop => exact Build.closeLoop_within .closeLoop .closeCount .closeBranch
  | label => exact Build.label_within .label
  | reg => exact (Build.newReg_within .reg .regLoad).discard
  | writeImm => exact (Build.load_within .writeImm).discard
  | instr => exact Build.append_within .instr
  | resetTimeline => exact Build.resetTimeline_within .resetTimeline
  | finish => exact Build.append_within .finish

/-! ### Programs that can be built -/

/-- There is an empty program for a board that passes its check and whose registers can
be reserved. -/
theorem Program.ofBoard_eq_ok_iff {board : Board} {p : Program} :
    Program.ofBoard board = .ok p ↔
      board.validate = .ok () ∧ ∃ registers,
        allocateAll (.empty board.pages board.regsPerPage) (reserved board) = .ok registers ∧
        p = {
          board
          registers
          envelopes := board.gens.zipIdx.map fun e => .ofGen e.2 e.1
          timeline := .zero board.gens.length board.readouts.length
          readoutLengths := board.readouts.map fun _ => none } := by
  constructor
  · intro h
    obtain ⟨_, hvalid, h⟩ := bind_eq_ok_iff.mp h
    obtain ⟨registers, hall, h⟩ := bind_eq_ok_iff.mp h
    exact ⟨hvalid, registers, hall, (Except.ok.inj h).symm⟩
  · rintro ⟨hvalid, registers, hall, rfl⟩
    exact bind_eq_ok_iff.mpr ⟨(), hvalid, bind_eq_ok_iff.mpr ⟨registers, hall, rfl⟩⟩

/-- The programs that building leads to on a board, failed steps included: the
steps of scripts, and the two calls that no script can spell out in full, for a
register with an owner and for a pulse with given parameters. -/
inductive Reachable (board : Board) : Program → Prop where
  | start {p : Program} (h : Program.ofBoard board = .ok p) : Reachable board p
  | step {p : Program} (s : Step) (h : Reachable board p) : Reachable board (s.apply.apply p).2
  | newReg {p : Program} (r : RegRequest) (h : Reachable board p) :
      Reachable board ((Build.newReg r).apply p).2
  | addPulse {p : Program} (ch : ℕ) (name : String) (style : Style) (params : Params) (h : Reachable board p) :
      Reachable board ((Build.addPulse ch name style params).apply p).2

/-- What holds of the empty program and survives every edit holds of every
program that can be built. -/
theorem Reachable.induction {board : Board} {P : Program → Prop} {p : Program} (h : Reachable board p)
    (hstart : ∀ p, Program.ofBoard board = .ok p → P p)
    (hedit : ∀ c p q, Edit c p q → P p → P q) : P p := by
  have hwithin : ∀ {α : Type} {b : Build α} {p : Program}, Build.Within (fun _ => True) b p → P p → P (b.apply p).2 :=
    fun hb hp => Edits.preserves hb hp fun c p q _ he => hedit c p q he
  induction h with
  | start h => exact hstart _ h
  | step s _ ih => exact (s.edits _).preserves ih fun c p q _ he => hedit c p q he
  | newReg r _ ih => exact hwithin (Build.newReg_within (fun _ _ => trivial) fun _ _ _ _ => trivial) ih
  | addPulse ch name style params _ ih =>
    exact hwithin (Build.addPulse_within (fun _ _ => trivial) fun _ _ => trivial) ih

/-- The program after any sequence of steps, those that fail included. -/
def Program.after (p : Program) (steps : List Step) : Program := steps.foldl (fun p s => (s.apply.apply p).2) p

theorem Reachable.after {board : Board} {p : Program} (h : Reachable board p) (steps : List Step) :
    Reachable board (p.after steps) := by
  induction steps generalizing p with
  | nil => exact h
  | cons s steps ih => exact ih (.step s h)

/-- A board with nothing connected to it. -/
def bareBoard : Board where
  pages := 8
  regsPerPage := 32
  timingClock := 384.0
  pins := []
  gens := []
  readouts := []

/-- The empty program on the bare board: the trigger registers are taken. -/
def bareProgram : Program where
  board := bareBoard
  registers := ⟨32, 0xC0000000 :: List.replicate 7 0,
    [⟨0, 30, .generic, none, "trig_t", none⟩, ⟨0, 31, .generic, none, "trig_out", none⟩]⟩
  envelopes := []
  timeline := .zero 0 0
  readoutLengths := []

theorem ofBoard_bareBoard : Program.ofBoard bareBoard = .ok bareProgram := by rfl

end PulseAsm
