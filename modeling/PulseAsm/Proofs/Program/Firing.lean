import PulseAsm.Proofs.Machine.Flow
import PulseAsm.Proofs.Program.Waves

/-!
# Outputs in execution

The machine passes over an output, but the hardware makes it at the time that a register
holds then. `Machine.firings` is the record of a number of steps: for each output the
instruction, the register of its time, and the value of that register when the machine
comes to it.

The code of pulses and triggers loads a register again and again, in one to three
instructions each time; the record of running it is the one that was asked for, at times
in the whole range of a register (`fired_of_plays`, `fired_of_triggers`).
-/

namespace PulseAsm

open Machine

/-! ### The record of an execution -/

/-- An output that is made. -/
structure Firing where
  /-- The instruction. -/
  instr : Instr
  /-- The page and the address of the register that holds its time. -/
  place : ℕ × ℕ
  /-- What the register holds. -/
  time : ℕ
  deriving DecidableEq

/-- The mnemonics of the outputs that take their time from a register. -/
def timedMnemonics : List String := ["wseti", "dporti"]

/-- The register that an output takes its time from. -/
def Instr.timePlace? (i : Instr) : Option (ℕ × ℕ) :=
  if i.mnemonic ∈ timedMnemonics then
    match i.operands with
    | _ :: .value page :: .value reg :: _ => some (page.toNat, reg.toNat)
    | _ => none
  else none

namespace Machine

/-- The output that an instruction makes when the machine comes to it, if it is one. -/
def firing? (m : Machine) (i : Instr) : Option Firing := do
  let place ← i.timePlace?
  let v ← m.reg? place.1 place.2
  return ⟨i, place, v.toNat⟩

/-- The instruction at the program counter. -/
def current? (code : Code) (m : Machine) : Option Instr := (code[m.pc]?).bind Except.toOption

/-- The outputs that are made in a number of steps, up to a trap. -/
def firings (code : Code) : ℕ → Machine → List Firing
  | 0, _ => []
  | n + 1, m =>
    ((current? code m).bind m.firing?).toList ++
      match (step code).apply m with
      | (.ok (), m') => firings code n m'
      | (.error _, _) => []

/-- The outputs that instructions make one after the other. -/
def fired : Machine → List Instr → List Firing
  | _, [] => []
  | m, i :: is => (m.firing? i).toList ++ (m.perform i).fired is

theorem fired_append (m : Machine) (is js : List Instr) :
    m.fired (is ++ js) = m.fired is ++ (is.foldl perform m).fired js := by
  induction is generalizing m with
  | nil => rfl
  | cons i is ih => simp only [List.cons_append, fired, ih, List.foldl_cons, List.append_assoc]

theorem firing?_of_notMem {i : Instr} (h : i.mnemonic ∉ timedMnemonics) (m : Machine) : m.firing? i = none := by
  simp [firing?, Instr.timePlace?, h]

theorem fired_of_notMem {is : List Instr} (h : ∀ i ∈ is, i.mnemonic ∉ timedMnemonics) (m : Machine) :
    m.fired is = [] := by
  induction is generalizing m with
  | nil => rfl
  | cons i is ih =>
    rw [List.forall_mem_cons] at h
    rw [fired, firing?_of_notMem h.1, ih h.2]
    rfl

end Machine

/-- An instruction of one slot that goes on to the next address; as an output, it comes
back from its word as it is. -/
structure Instr.Single (i : Instr) : Prop where
  straight : i.Straight
  slots : slotsOf i.mnemonic = 1
  folded : i.mnemonic ∈ timedMnemonics → i.folded = i

theorem Instr.immNonneg_of_natCast {i : Instr} (h : ∀ o ∈ i.operands, ∃ n : ℕ, o = .value n) : i.ImmNonneg := by
  intro k v hk _
  obtain ⟨n, hn⟩ := h _ (List.mem_of_getElem? hk)
  rw [Operand.value.inj hn]
  exact Int.natCast_nonneg n

theorem Instr.Single.firing?_folded {i : Instr} (h : i.Single) (m : Machine) (a : ℕ) :
    (m.goto a).firing? i.folded = m.firing? i := by
  by_cases hmem : i.mnemonic ∈ timedMnemonics
  · rw [h.folded hmem]
    simp only [firing?, reg?_goto]
  · have hfolded : i.folded.mnemonic ∉ timedMnemonics := hmem
    rw [firing?_of_notMem hmem, firing?_of_notMem hfolded]

section Row

variable {code : Code} {a : ℕ} {is : List Instr} {m : Machine} (hcode : code.HoldsAll a is)
  (hsingle : ∀ i ∈ is, i.Single) (hm : 8 ≤ m.pages.size)
include hcode hsingle hm

/-- The machine comes to every instruction in turn. -/
theorem steps_of_single {k : ℕ} (hk : k ≤ is.length) :
    Steps code k (m.goto a) (((is.take k).foldl perform m).goto (a + k)) := by
  have hsplit : code.HoldsAll a (is.take k ++ is.drop k) := by rwa [List.take_append_drop]
  have htake := (Code.holdsAll_append.mp hsplit).1
  have hmem : ∀ i ∈ is.take k, i.Single := fun i hi => hsingle i (List.mem_of_mem_take hi)
  have hfits : ∀ i ∈ is.take k, i.Fits m := by
    intro i hi
    obtain ⟨w, henc⟩ := Code.exists_encode_of_holdsAll htake i hi
    exact (hmem i hi).straight.fits henc hm
  have hsteps := steps_of_holdsAll htake (fun i hi => (hmem i hi).straight) hfits
  rwa [slotTotal_of_one fun i hi => (hmem i hi).slots, List.length_take, Nat.min_eq_left hk] at hsteps

/-- The record of running through instructions is the one that performing them gives. -/
theorem firings_of_single : firings code is.length (m.goto a) = m.fired is := by
  induction is generalizing a m with
  | nil => rfl
  | cons i is ih =>
    have hi := hsingle i (List.mem_cons_self ..)
    obtain ⟨hholds, -, hrest⟩ := hcode
    obtain ⟨w, henc, hget⟩ := id hholds
    have hfits := hi.straight.fits henc hm
    have hstep : (step code).apply (m.goto a) = (.ok (), ((m.perform i).goto a).goto (a + 1)) :=
      step_of_holds hholds (hi.straight.execute_goto henc hfits a a)
    have hcurrent : current? code (m.goto a) = some i.folded := by
      have hget' : code[(m.goto a).pc]? = some (decode w) := hget
      rw [current?, hget', decode_of_encode henc]
      rfl
    rw [hi.slots] at hrest
    have hsize := hi.straight.pages_perform henc hfits
    have hfirings : firings code is.length (((m.perform i).goto a).goto (a + 1)) = (m.perform i).fired is :=
      ih (m := m.perform i) hrest (fun j hj => hsingle j (List.mem_cons_of_mem _ hj)) (by omega)
    rw [List.length_cons, firings, hcurrent, Option.bind_some, hi.firing?_folded, hstep, fired, ← hfirings]

end Row

/-! ### What the code of outputs fires -/

namespace Build

variable {m : Machine} {page reg : ℕ} {v : ℤ} {steps : List LoadStep}

theorem notMem_timed_loadInstr (page reg : ℕ) (s : LoadStep) : (loadInstr page reg s).mnemonic ∉ timedMnemonics := by
  cases s <;> simp [loadInstr, timedMnemonics]

theorem single_loadInstr (page reg : ℕ) (s : LoadStep) : (loadInstr page reg s).Single := by
  refine ⟨straight_loadInstr page reg s, slotsOf_loadInstr page reg s, fun h => ?_⟩
  exact absurd h (notMem_timed_loadInstr page reg s)

/-- The register of a load that encodes exists. -/
theorem lt_of_encode_load (h : loadSteps v = .ok steps)
    (henc : ∀ i ∈ steps.map (loadInstr page reg), ∃ w, encode i = .ok w) : page < 8 ∧ reg < 32 := by
  cases steps with
  | nil => simp [loadSteps_eq_ok_iff] at h
  | cons s steps =>
    obtain ⟨w, hw⟩ := henc _ (List.mem_cons_self ..)
    have htarget := target?_loadInstr page reg s
    rcases (straight_loadInstr page reg s).effect hw with ⟨hnone, -⟩ | ⟨page', dst, f, hsome, hpage, hdst, -⟩
    · rw [hnone] at htarget
      cases htarget
    · rw [hsome] at htarget
      cases htarget
      exact ⟨hpage, hdst⟩

/-- An output that follows the load of its time is made at that time. -/
theorem fired_load_append {t : ℕ} (h : loadSteps (t : ℕ) = .ok steps)
    (henc : ∀ i ∈ steps.map (loadInstr page reg), ∃ w, encode i = .ok w) (hm : 8 ≤ m.pages.size) (is : List Instr) :
    ∃ m' : Machine, m'.pages.size = m.pages.size ∧ (∃ x, m'.reg? page reg = some x ∧ x.toNat = t) ∧
      m.fired (steps.map (loadInstr page reg) ++ is) = m'.fired is := by
  obtain ⟨hpage, hreg⟩ := lt_of_encode_load h henc
  have hp : page < m.pages.size := by omega
  refine ⟨m.setReg page reg (loadedWord t), by simp, ⟨loadedWord t, ?_, ?_⟩, ?_⟩
  · rw [← assign_false, reg?_assign_self hp hreg]
  · rw [loadedWord_natCast, UInt32.toNat_ofNat', Nat.mod_eq_of_lt (loadSteps_natCast h)]
  · have hload := fired_of_notMem (List.forall_mem_map.mpr fun s (_ : s ∈ steps) => notMem_timed_loadInstr page reg s) m
    rw [fired_append, hload, foldl_perform_load hp hreg h, List.nil_append]

theorem action_playInstr (ch index : ℕ) : Action.ofMnemonic (playInstr ch index).mnemonic = .pass := by
  show Action.ofMnemonic "wseti" = .pass
  decide

theorem action_portInstr (port mask : ℕ) : Action.ofMnemonic (portInstr port mask).mnemonic = .pass := by
  show Action.ofMnemonic "dporti" = .pass
  decide

theorem action_markerInstr (port level t : ℕ) : Action.ofMnemonic (markerInstr port level t).mnemonic = .pass := by
  show Action.ofMnemonic "trigi" = .pass
  decide

/-- What is read at a register that a list of outputs takes its time from. -/
theorem fired_of_pass {is : List Instr} (place : ℕ × ℕ) {x : UInt32} (hx : m.reg? place.1 place.2 = some x)
    (his : ∀ i ∈ is, i.timePlace? = some place ∧ Action.ofMnemonic i.mnemonic = .pass) :
    m.fired is = is.map fun i => ⟨i, place, x.toNat⟩ := by
  induction is with
  | nil => rfl
  | cons i is ih =>
    rw [List.forall_mem_cons] at his
    have hperform : m.perform i = m := by rw [perform, execute_pass his.1.2]
    have hfiring : m.firing? i = some ⟨i, place, x.toNat⟩ := by simp [firing?, his.1.1, hx]
    rw [fired, hfiring, hperform, ih his.2]
    rfl

/-- The segments of a pulse are played in order, each at the start of the pulse and its offset. -/
theorem fired_of_plays {board : Board} {ch start : ℕ} {g : Generator} (hg : board.gens[ch]? = some g)
    {segments : List (ℕ × ℕ)} {is : List Instr} (h : Plays board ch start segments is)
    (henc : ∀ i ∈ is, ∃ w, encode i = .ok w) (hm : 8 ≤ m.pages.size) :
    m.fired is = segments.map fun s =>
      ⟨playInstr ch s.1, ((PulseRegs.ofGen ch).page, (PulseRegs.ofGen ch).time),
        start + board.timingCycles g.fabricClock s.2⟩ := by
  induction h generalizing m with
  | nil => rfl
  | @cons index offset cycles steps segments is hcycles hsteps hrest ih =>
    obtain ⟨g', hg', rfl⟩ := Board.genCycles_eq_ok hcycles
    obtain rfl : g' = g := Option.some.inj (hg'.symm.trans hg)
    rw [List.forall_mem_append, List.forall_mem_cons] at henc
    obtain ⟨m', hsize, ⟨x, hx, hxt⟩, hfired⟩ := fired_load_append hsteps henc.1 hm (playInstr ch index :: is)
    have hplay : m'.firing? (playInstr ch index) =
        some ⟨playInstr ch index, ((PulseRegs.ofGen ch).page, (PulseRegs.ofGen ch).time), x.toNat⟩ := by
      simp [firing?, Instr.timePlace?, playInstr, timedMnemonics, hx]
    have hperform : m'.perform (playInstr ch index) = m' := by rw [perform, execute_pass (action_playInstr ch index)]
    rw [hfired, fired, hplay, hperform, ih henc.2.2 (by omega), hxt]
    rfl

theorem fired_of_writes {t : ℕ} {masks : List (ℕ × ℕ)} {is : List Instr} (h : Writes t masks is)
    (henc : ∀ i ∈ is, ∃ w, encode i = .ok w) (hm : 8 ≤ m.pages.size) :
    m.fired is = masks.map (fun e => ⟨portInstr e.1 e.2, (triggerPage, triggerTimeReg), t⟩) := by
  obtain ⟨steps, hsteps, rfl⟩ := h
  rw [List.forall_mem_append] at henc
  obtain ⟨m', -, ⟨x, hx, rfl⟩, hfired⟩ := fired_load_append hsteps henc.1 hm (masks.map fun e => portInstr e.1 e.2)
  have hports : ∀ i ∈ masks.map fun e => portInstr e.1 e.2,
      i.timePlace? = some (triggerPage, triggerTimeReg) ∧ Action.ofMnemonic i.mnemonic = .pass :=
    List.forall_mem_map.mpr fun e _ => ⟨rfl, action_portInstr e.1 e.2⟩
  rw [hfired, fired_of_pass (triggerPage, triggerTimeReg) hx hports, List.map_map]
  rfl

/-- The data ports are set together and cleared together. -/
theorem fired_of_triggers {t width : ℕ} {masks : List (ℕ × ℕ)} {is : List Instr} (h : Triggers t width masks is)
    (henc : ∀ i ∈ is, ∃ w, encode i = .ok w) (hs : ∀ i ∈ is, i.Straight) (hm : 8 ≤ m.pages.size) :
    m.fired is =
      masks.map (fun e => ⟨portInstr e.1 e.2, (triggerPage, triggerTimeReg), t⟩) ++
        masks.map (fun e => ⟨portInstr e.1 0, (triggerPage, triggerTimeReg), t + width⟩) := by
  cases h with
  | nil => rfl
  | @cons e masks up down hup hdown =>
    rw [List.forall_mem_append] at henc hs
    have hsize := pages_foldl_perform hs.1 henc.1 hm
    rw [fired_append, fired_of_writes hup henc.1 hm, fired_of_writes hdown henc.2 (by omega), List.map_map]
    rfl

theorem single_of_pass {i : Instr} (hact : Action.ofMnemonic i.mnemonic = .pass) (hslots : slotsOf i.mnemonic = 1)
    (hnat : ∀ o ∈ i.operands, ∃ n : ℕ, o = .value n) : i.Single :=
  ⟨by simp [Instr.Straight, hact], hslots, fun _ => Instr.folded_of_immNonneg (Instr.immNonneg_of_natCast hnat)⟩

theorem single_playInstr (ch index : ℕ) : (playInstr ch index).Single :=
  single_of_pass (action_playInstr ch index) rfl (by simp [playInstr])

theorem single_portInstr (port mask : ℕ) : (portInstr port mask).Single :=
  single_of_pass (action_portInstr port mask) rfl (by simp [portInstr])

theorem single_markerInstr (port level t : ℕ) : (markerInstr port level t).Single :=
  single_of_pass (action_markerInstr port level t) rfl (by simp [markerInstr])

theorem forall_mem_markers {P : Instr → Prop} (h : ∀ port level t, P (markerInstr port level t)) (ports : List ℕ)
    (t width : ℕ) :
    ∀ i ∈ ports.flatMap (fun port => [markerInstr port 1 t, markerInstr port 0 (t + width)]), P i := by
  intro i hi
  obtain ⟨port, -, hi⟩ := List.mem_flatMap.mp hi
  rcases List.mem_pair.mp hi with rfl | rfl
  · exact h port 1 t
  · exact h port 0 (t + width)

theorem Plays.single {board : Board} {ch start : ℕ} {segments : List (ℕ × ℕ)} {is : List Instr}
    (h : Plays board ch start segments is) : ∀ i ∈ is, i.Single := by
  induction h with
  | nil => simp
  | cons hcycles hsteps hrest ih =>
    rw [List.forall_mem_append, List.forall_mem_cons, List.forall_mem_map]
    exact ⟨fun s _ => single_loadInstr _ _ s, single_playInstr _ _, ih⟩

theorem Writes.single {t : ℕ} {masks : List (ℕ × ℕ)} {is : List Instr} (h : Writes t masks is) :
    ∀ i ∈ is, i.Single := by
  obtain ⟨steps, -, rfl⟩ := h
  rw [List.forall_mem_append, List.forall_mem_map, List.forall_mem_map]
  exact ⟨fun s _ => single_loadInstr _ _ s, fun e _ => single_portInstr e.1 e.2⟩

theorem Triggers.single {t width : ℕ} {masks : List (ℕ × ℕ)} {is : List Instr} (h : Triggers t width masks is) :
    ∀ i ∈ is, i.Single := by
  cases h with
  | nil => simp
  | cons hup hdown => exact List.forall_mem_append.mpr ⟨hup.single, hdown.single⟩

end Build

/-! ### Outputs on time -/

/-- The instructions that were appended to a program fire outputs. They stand at the next
addresses. Wherever an image has their words, one after the other, a machine that comes to
the first of them runs through all of them in order, without a trap, and makes the outputs. -/
def Program.Fires (p q : Program) (events : List Firing) : Prop :=
  ∃ new : List Line, q.lines = p.lines ++ new ∧
    (∀ (k : ℕ) (l : Line), new[k]? = some l → l.addr = p.nextAddr + k) ∧
    ∀ (image : List Word) (a : ℕ) (m : Machine),
      (∀ (k : ℕ) (l : Line), new[k]? = some l → ∃ w, encode l.instr = .ok w ∧ image[a + k]? = some w) →
      8 ≤ m.pages.size → m.pc = a →
      (∀ k ≤ new.length, ∃ m', Steps (Code.ofWords image) k m m' ∧ m'.pc = a + k) ∧
      firings (Code.ofWords image) new.length m = events

/-- What instructions fire, those that are appended fire. -/
theorem Program.fires_of_adds {p q : Program} {timeline : Timeline} {is : List Instr} {events : List Firing}
    (hp : p.Laid) (hq : q.Laid) (hadds : { p with timeline }.Adds q is) (hsingle : ∀ i ∈ is, i.Single)
    (hfired : ∀ m : Machine, 8 ≤ m.pages.size → (∀ i ∈ is, ∃ w, encode i = .ok w) → m.fired is = events) :
    p.Fires q events := by
  obtain ⟨new, next, rfl, rfl⟩ := hadds
  rw [List.forall_mem_map] at hsingle
  refine ⟨new, rfl, fun k l hk => ?_, fun image a m himage hm hpc => ?_⟩
  · have hlt : k < new.length := (List.getElem?_eq_some_iff.mp hk).1
    have hslots : slotSum (new.take k) = k := by
      rw [← slotTotal_instrs, slotTotal_of_one (List.forall_mem_map.mpr fun l hl =>
        (hsingle l (List.mem_of_mem_take hl)).slots), List.length_map, List.length_take, Nat.min_eq_left (Nat.le_of_lt hlt)]
    have haddr := hq.addr (p.lines.length + k) l (by
      rw [List.getElem?_append_right (Nat.le_add_right _ _), Nat.add_sub_cancel_left, hk])
    rw [haddr, List.take_length_add_append, slotSum_append, hslots, hp.next]
  · have hcode : (Code.ofWords image).HoldsAll a (new.map (·.instr)) := by
      refine Code.holdsAll_of_forall (List.forall_mem_map.mpr fun l hl => (hsingle l hl).slots) fun k i hk => ?_
      rw [List.getElem?_map, Option.map_eq_some_iff] at hk
      obtain ⟨l, hl, rfl⟩ := hk
      obtain ⟨w, henc, hw⟩ := himage k l hl
      exact ⟨w, henc, by rw [Code.getElem?_ofWords, hw]; rfl⟩
    have hsingle' := List.forall_mem_map.mpr hsingle
    subst hpc
    refine ⟨fun k hk => ⟨_, steps_of_single hcode hsingle' hm (by simpa using hk), rfl⟩, ?_⟩
    have hfirings := firings_of_single hcode hsingle' hm
    rw [hfired m hm (Code.exists_encode_of_holdsAll hcode), List.length_map] at hfirings
    exact hfirings

theorem Reachable.play {board : Board} {p q : Program} (h : Reachable board p) {ch : ℕ} {name : String} {time : Time}
    {res : Except Error ℕ} (hplay : (Build.play ch name time).apply p = (res, q)) : Reachable board q := by
  cases time with
  | auto =>
    have hstep := h.step (.play ch name none)
    rwa [Step.apply, Build.apply_discard, hplay] at hstep
  | fixed t =>
    have hstep := h.step (.play ch name (some t))
    rwa [Step.apply, Build.apply_discard, hplay] at hstep

theorem Reachable.trigger {board : Board} {p q : Program} (h : Reachable board p) {ros pins : List ℕ} {t width : ℕ}
    {res : Except Error Unit} (htrigger : (Build.trigger ros pins t width).apply p = (res, q)) : Reachable board q := by
  have hstep := h.step (.trigger ros pins t width)
  rwa [Step.apply, htrigger] at hstep

/-- **Outputs fire on time**: a pulse that is played fires its segments in order, each at
the time that was returned and its offset, converted to timing cycles. A trigger writes to each data port of its readouts and pins exactly twice:
the mask of the bits that were asked for, at the time of the trigger, and zero when its
width is over. -/
theorem outputs_fire_on_time {board : Board} {p : Program} (h : Reachable board p) :
    (∀ ch name time start q, (Build.play ch name time).apply p = (.ok start, q) →
      ∃ e g, p.findPulse? ch name = some e ∧ p.board.gens[ch]? = some g ∧
        e.waves.length = e.pulse.waves.length ∧ e.pulse.offsets.length = e.pulse.waves.length ∧
        p.Fires q ((e.waves.zip e.pulse.offsets).map fun s =>
          ⟨Build.playInstr ch s.1, ((PulseRegs.ofGen ch).page, (PulseRegs.ofGen ch).time),
            start + p.board.timingCycles g.fabricClock s.2⟩)) ∧
    ∀ ros pins t width q, (Build.trigger ros pins t width).apply p = (.ok (), q) →
      ∃ masks, masks = Build.portMasks (p.board.triggerPorts ros pins) ∧ (masks.map (·.1)).Nodup ∧
        (∀ e ∈ masks, e.2 ≠ 0) ∧
        (∀ port bit, .dport port bit ∈ p.board.triggerPorts ros pins ↔ ∃ e ∈ masks, e.1 = port ∧ e.2.testBit bit) ∧
        p.Fires q (masks.map (fun e => ⟨Build.portInstr e.1 e.2, (0, 30), t⟩) ++
          masks.map (fun e => ⟨Build.portInstr e.1 0, (0, 30), t + width⟩)) := by
  constructor
  · intro ch name time start q hplay
    rcases Build.code_of_play hplay with ⟨-, err, herr⟩ |
      ⟨e, g, start', played, hfind, hg, -, hall, hplays, timeline, hadds⟩
    · cases herr
    · obtain ⟨rfl, rfl⟩ := hall start rfl
      have he : e ∈ p.pulses := List.mem_of_find?_eq_some hfind
      obtain ⟨base, hrange, -⟩ := h.tabled.exists_base he
      refine ⟨e, g, hfind, hg, by rw [hrange, List.length_range'], h.tabled.length_offsets he, ?_⟩
      exact Program.fires_of_adds h.laid (h.play hplay).laid hadds hplays.single fun m hm henc =>
        Build.fired_of_plays hg hplays henc hm
  · intro ros pins t width q htrigger
    obtain ⟨is, htriggers, happended, timeline, hadds⟩ := Build.code_of_trigger htrigger
    rw [happended] at hadds
    refine ⟨_, rfl, Build.nodup_portMasks _, fun e he => Build.ne_zero_of_mem_portMasks he,
      fun port bit => (Build.exists_portMasks_iff _ port bit).symm, ?_⟩
    refine Program.fires_of_adds h.laid (h.trigger htrigger).laid hadds ?_ fun m hm henc => ?_
    · exact List.forall_mem_append.mpr ⟨htriggers.single, Build.forall_mem_markers Build.single_markerInstr _ t width⟩
    · have hmarkers := fired_of_notMem (Build.forall_mem_markers
        (fun port level t => by simp [Build.markerInstr, timedMnemonics])
        (Build.pulsedPorts (p.board.triggerPorts ros pins)) t width) (is.foldl perform m)
      rw [List.forall_mem_append] at henc
      rw [fired_append, hmarkers, List.append_nil]
      exact Build.fired_of_triggers htriggers henc.1 (fun i hi => (htriggers.single i hi).straight) hm

/-- A board with one generator and three pins, two of them at the same data port. -/
def pinBoard : Board := { generatorBoard with pins := [.dport 0 3, .dport 1 2, .dport 0 5] }

/-- Times that take three instructions to load: a flat top of three segments, and then a
trigger of all pins. -/
theorem outputs_fire_on_time_late :
    ∃ p₀ p q r, Program.ofBoard pinBoard = .ok p₀ ∧ p₀.afterCalls lookalikeCalls = p ∧
      (Build.play 0 "tone_w0" (.fixed 0x40000001)).apply p = (.ok 0x40000001, q) ∧
      (Build.trigger [] [0, 1, 2] 0xFFFFFF01 10).apply q = (.ok (), r) ∧
      (∀ l ∈ r.lines, (encode l.instr).isOk) ∧
      p.Fires q [⟨Build.playInstr 0 1, (0, 21), 0x40000001⟩, ⟨Build.playInstr 0 2, (0, 21), 0x40000004⟩,
        ⟨Build.playInstr 0 3, (0, 21), 0x4000002C⟩] ∧
      q.Fires r [⟨Build.portInstr 0 0b101000, (0, 30), 0xFFFFFF01⟩, ⟨Build.portInstr 1 0b100, (0, 30), 0xFFFFFF01⟩,
        ⟨Build.portInstr 0 0, (0, 30), 0xFFFFFF0B⟩, ⟨Build.portInstr 1 0, (0, 30), 0xFFFFFF0B⟩] := by
  have hrun : (Program.ofBoard pinBoard).toOption.map (fun p₀ =>
      let p := p₀.afterCalls lookalikeCalls
      let q := ((Build.play 0 "tone_w0" (.fixed 0x40000001)).apply p).2
      (((Build.play 0 "tone_w0" (.fixed 0x40000001)).apply p).1,
        ((Build.trigger [] [0, 1, 2] 0xFFFFFF01 10).apply q).1,
        ((Build.trigger [] [0, 1, 2] 0xFFFFFF01 10).apply q).2.lines.all fun l => (encode l.instr).isOk,
        (p.findPulse? 0 "tone_w0").map fun e => (e.waves.zip e.pulse.offsets).map fun s =>
          (⟨Build.playInstr 0 s.1, ((PulseRegs.ofGen 0).page, (PulseRegs.ofGen 0).time),
            0x40000001 + pinBoard.timingCycles ({} : Generator).fabricClock s.2⟩ : Firing))) =
      some (.ok 0x40000001, .ok (), true, some [⟨Build.playInstr 0 1, (0, 21), 0x40000001⟩,
        ⟨Build.playInstr 0 2, (0, 21), 0x40000004⟩, ⟨Build.playInstr 0 3, (0, 21), 0x4000002C⟩]) := by decide +kernel
  cases h₀ : Program.ofBoard pinBoard with
  | error e =>
    rw [h₀] at hrun
    cases hrun
  | ok p₀ =>
    rw [h₀] at hrun
    obtain ⟨hplay, htrigger, hencode, hevents⟩ : _ ∧ _ ∧ _ ∧ _ := by
      simpa only [Except.toOption, Option.map_some, Option.some.injEq, Prod.mk.injEq] using hrun
    have hp : Reachable pinBoard (p₀.afterCalls lookalikeCalls) := (Reachable.start h₀).afterCalls lookalikeCalls
    obtain ⟨q, hplay⟩ : ∃ q, (Build.play 0 "tone_w0" (.fixed 0x40000001)).apply (p₀.afterCalls lookalikeCalls) =
      (.ok 0x40000001, q) := ⟨_, Prod.ext hplay rfl⟩
    rw [hplay] at htrigger hencode
    obtain ⟨r, htrigger⟩ : ∃ r, (Build.trigger [] [0, 1, 2] 0xFFFFFF01 10).apply q = (.ok (), r) :=
      ⟨_, Prod.ext htrigger rfl⟩
    rw [htrigger] at hencode
    have hq := hp.play hplay
    obtain ⟨e, g, hfind, hg, -, -, hfires⟩ := (outputs_fire_on_time hp).1 _ _ _ _ _ hplay
    obtain ⟨masks, rfl, -, -, -, hfires'⟩ := (outputs_fire_on_time hq).2 _ _ _ _ _ htrigger
    rw [hp.board_eq.1] at hg hfires
    rw [hq.board_eq.1] at hfires'
    obtain rfl := Option.some.inj hg
    rw [hfind, Option.map_some, Option.some.injEq] at hevents
    rw [hevents] at hfires
    exact ⟨p₀, _, q, r, rfl, rfl, hplay, htrigger, List.all_eq_true.mp hencode, hfires, hfires'⟩

end PulseAsm
