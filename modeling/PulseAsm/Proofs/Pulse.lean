import PulseAsm.Pulse.Basic
import PulseAsm.Proofs.Board
import PulseAsm.Proofs.Envelope
import Mathlib.Algebra.Ring.Int.Defs

/-!
# The geometry of compiled pulses

What a pulse is made of once it is compiled: which waves, of which length, gain and
configuration, and which clocks of the envelope they read.

The three styles are brought into one form first. `Pulse.plan` lists the segments of a
pulse, and compiling one is to check each segment of the plan and to add up their lengths
(`Pulse.compile_eq_ok_iff`). What holds of every wave is then said of a single segment.
-/

namespace PulseAsm

open Binary64

/-! ### Words -/

/-- A gain word of a generator: it has 32 bits, and is at most as large as the largest sample. -/
structure Generator.Takes (g : Generator) (gain : ℤ) : Prop where
  natAbs_le : gain.natAbs ≤ g.fullScale.natAbs
  ge : -0x80000000 ≤ gain
  le : gain ≤ 0x7FFFFFFF

/-- Half a gain, cut towards zero, is one too. -/
theorem Generator.Takes.half {g : Generator} {gain : ℤ} (h : g.Takes gain) : g.Takes (gain.tdiv 2) := by
  obtain ⟨hscale, hge, hle⟩ := h
  have hhalf : (gain.tdiv 2).natAbs = gain.natAbs / 2 := Int.natAbs_tdiv gain 2
  exact ⟨by omega, by omega, by omega⟩

namespace Board

variable {b : Board} {ch : ℕ} {g : Generator}

/-- A frequency word has as many bits as the accumulator. -/
theorem freqToReg_lt {mhz : Float} {n : ℕ} (hg : b.gen ch = .ok g) (hbits : g.ddsBits ≤ 32)
    (h : b.freqToReg ch mhz = .ok n) : n < 2 ^ g.ddsBits := by
  obtain ⟨g', hg', h⟩ := bind_eq_ok_iff.mp h
  obtain rfl := Except.ok.inj (hg.symm.trans hg')
  have hmodulus : g.modulus = (2 ^ g.ddsBits : ℕ) := by
    rw [Generator.modulus, Nat.mod_eq_of_lt (by omega), Nat.one_shiftLeft]
  split at h
  · rename_i steps _
    cases h
    have hpos : 0 < 2 ^ g.ddsBits := Nat.two_pow_pos _
    have hlt := Int.emod_lt_of_pos steps (b := g.modulus) (by omega)
    have hle := Nat.mod_le (steps % g.modulus).toNat (1 <<< 32)
    omega
  · cases h

theorem takes_of_gainToReg {gain : Float} {n : ℤ} (hg : b.gen ch = .ok g) (h : b.gainToReg ch gain = .ok n) :
    g.Takes n := by
  obtain ⟨g', hg', h⟩ := bind_eq_ok_iff.mp h
  obtain rfl := Except.ok.inj (hg.symm.trans hg')
  split at h
  · rename_i reg hreg
    split at h
    · cases h
      obtain ⟨hge, hle⟩ := mem_range_of_filter hreg
      exact ⟨‹_›, hge, hle⟩
    · cases h
  · cases h

end Board

/-- The configuration word of a wave asks for the phase to start anew. -/
def Wave.resetsPhase (w : Wave) : Bool := w.conf.toNat.testBit 4

/-- A configuration word has five bits, the highest of which asks for the phase to start anew. -/
theorem outputConfig_bounds (source : Option OutputSource) (mode : Option RunMode) (idle : Option IdleLevel)
    (phaseReset : Option Bool) :
    outputConfig source mode idle phaseReset < 32 ∧
      (outputConfig source mode idle phaseReset).testBit 4 = phaseReset.getD false := by
  have hsource : (source.getD .product).code ≤ 3 := by cases source.getD .product <;> decide
  have hmode : (mode.getD .oneshot).code ≤ 4 := by cases mode.getD .oneshot <;> decide
  have hidle : (idle.getD .zero).code ≤ 8 := by cases idle.getD .zero <;> decide
  unfold outputConfig
  rw [Nat.testBit_eq_decide_div_mod_eq]
  cases phaseReset.getD false with
  | false =>
    rw [if_neg Bool.false_ne_true, decide_eq_false_iff_not]
    omega
  | true =>
    rw [if_pos rfl, decide_eq_true_iff]
    omega

/-! ### Parameters -/

theorem Param.mem_all (p : Param) : p ∈ all := by cases p <;> decide

theorem Params.missing_eq_nil_iff {style : Style} {ps : Params} :
    (style.required.filter fun p => !ps.isDefined p) = [] ↔ ∀ p ∈ style.required, ps.isDefined p := by
  simp

theorem Params.foreign_eq_nil_iff {style : Style} {ps : Params} :
    (ps.defined.filter fun p => p ∉ style.required ∧ p ∉ style.optional) = [] ↔
      ∀ p, ps.isDefined p → p ∈ style.required ∨ p ∈ style.optional := by
  simp only [defined, List.filter_eq_nil_iff, List.mem_filter, Param.mem_all, true_and, decide_eq_true_eq, not_and,
    Decidable.not_not, or_iff_not_imp_left]

/-- Parameters pass the check exactly if all that the style requires are there, and only
such as it takes. -/
theorem Params.validate_eq_ok_iff {style : Style} {ps : Params} :
    ps.validate style = .ok () ↔ (∀ p ∈ style.required, ps.isDefined p) ∧
      ∀ p, ps.isDefined p → p ∈ style.required ∨ p ∈ style.optional := by
  rw [← missing_eq_nil_iff, ← foreign_eq_nil_iff]
  unfold validate
  dsimp only
  cases style.required.filter fun p => !ps.isDefined p with
  | cons => simp
  | nil => cases ps.defined.filter fun p => p ∉ style.required ∧ p ∉ style.optional <;> simp

/-- An envelope is named exactly if the style plays one. -/
theorem Params.isSome_envelope_iff {style : Style} {ps : Params} (h : ps.validate style = .ok ()) :
    ps.envelope.isSome ↔ style ≠ .const := by
  obtain ⟨hrequired, htaken⟩ := validate_eq_ok_iff.mp h
  cases style with
  | const =>
    -- an envelope would be a parameter that the style does not take
    refine iff_of_false (fun hsome => ?_) (by decide)
    have hmem := htaken .envelope hsome
    revert hmem
    decide
  | arb => exact iff_of_true (hrequired .envelope (by decide)) (by decide)
  | flatTop => exact iff_of_true (hrequired .envelope (by decide)) (by decide)

/-- A style that does not play an envelope alone has a length of its own. -/
theorem Params.isSome_length {style : Style} {ps : Params} (h : ps.validate style = .ok ()) (hstyle : style ≠ .arb) :
    ps.length.isSome := by
  refine (validate_eq_ok_iff.mp h).1 .length ?_
  cases style with
  | const => decide
  | arb => exact absurd rfl hstyle
  | flatTop => decide

namespace Pulse

/-! ### Segments -/

/-- A segment of a pulse: what its carrier is asked to play. -/
structure Segment where
  /-- The gain word. -/
  gain : ℤ
  /-- The length in clocks. -/
  length : ℕ
  /-- The first clock of the envelope. -/
  env : ℕ
  /-- Where the output comes from. -/
  source : OutputSource
  /-- Whether it plays once or repeats. -/
  mode : Option RunMode
  /-- Whether the phase starts anew. -/
  phaseReset : Option Bool

/-- The wave of a segment, if its length is one that a generator can play. -/
def Carrier.play (c : Carrier) (s : Segment) : Except Error Wave :=
  c.wave s.gain s.length s.env s.source s.mode s.phaseReset

/-- The segments of a pulse whose envelope has `clocks` clocks from clock `addr` on. -/
def plan (style : Style) (c : Carrier) (ps : Params) (addr clocks : ℕ) : List Segment :=
  match style with
  | .const => [⟨c.gain, ps.length.getD 0, 0, .dds, ps.mode, ps.phaseReset⟩]
  | .arb => [⟨c.gain, clocks, addr, ps.source.getD .product, ps.mode, ps.phaseReset⟩]
  | .flatTop =>
    [⟨c.gain, clocks / 2, addr, .product, some .oneshot, ps.phaseReset⟩,
      ⟨c.gain.tdiv 2, ps.length.getD 0, 0, .dds, some .oneshot, none⟩,
      ⟨c.gain, clocks / 2, addr + (clocks + 1) / 2, .product, some .oneshot, none⟩]

/-- Where segments of these lengths start. -/
def starts (lengths : List ℕ) : List ℕ := (List.range lengths.length).map fun k => (lengths.take k).sum

/-- The pulse of a constant style plays no envelope; the others play the one that they name,
which has `clocks` clocks from clock `addr` on. -/
def Locates (style : Style) (ps : Params) (lib : EnvelopeLibrary) (addr clocks : ℕ) : Prop :=
  style ≠ .const → ∃ name e, ps.envelope = some name ∧ lib.get name = .ok e ∧
    addr = e.addr / lib.samplesPerClock ∧ clocks = e.length / lib.samplesPerClock

variable {style : Style} {c : Carrier} {ps : Params} {ch addr clocks : ℕ} {board : Board} {lib : EnvelopeLibrary}

theorem segments_eq {env : Option (ℕ × ℕ)} (h : style ≠ .const → env = some (addr, clocks)) :
    segments style c ps env = (plan style c ps addr clocks).mapM c.play >>= fun ws =>
      pure ⟨ws, starts ((plan style c ps addr clocks).map (·.length))⟩ := by
  cases style with
  | const =>
    unfold segments constSegments plan
    simp [Carrier.play, starts]
  | arb =>
    rw [h (by decide)]
    unfold segments arbSegments plan
    simp [Carrier.play, starts]
  | flatTop =>
    rw [h (by decide)]
    unfold segments flatTopSegments plan
    simp [Carrier.play, starts, List.range_succ]

/-- A style that plays an envelope has no segments without one. -/
theorem exists_env_of_segments {env : Option (ℕ × ℕ)} {segs : Segments} (h : segments style c ps env = .ok segs) :
    ∃ addr clocks, style ≠ .const → env = some (addr, clocks) := by
  cases env with
  | some p => exact ⟨p.1, p.2, fun _ => rfl⟩
  | none =>
    refine ⟨0, 0, fun hstyle => ?_⟩
    cases style with
    | const => exact absurd rfl hstyle
    | arb => cases h
    | flatTop => cases h

/-- The address and the length of the envelope that the parameters name, if they name one. -/
def findEnvelope (ps : Params) (lib : EnvelopeLibrary) : Except Error (Option (ℕ × ℕ)) :=
  match ps.envelope with
  | some name => some <$> envelopeClocks lib name
  | none => pure none

theorem envelopeClocks_eq_ok_iff {name : String} {p : ℕ × ℕ} :
    envelopeClocks lib name = .ok p ↔
      ∃ e, lib.get name = .ok e ∧ p = (e.addr / lib.samplesPerClock, e.length / lib.samplesPerClock) := by
  unfold envelopeClocks
  rw [bind_eq_ok_iff]
  refine exists_congr fun e => and_congr_right fun _ => ?_
  exact ⟨fun h => (Except.ok.inj h).symm, fun h => congrArg Except.ok h.symm⟩

theorem findEnvelope_eq_ok_iff {name : String} (h : ps.envelope = some name) {env : Option (ℕ × ℕ)} :
    findEnvelope ps lib = .ok env ↔ ∃ p, envelopeClocks lib name = .ok p ∧ env = some p := by
  unfold findEnvelope
  rw [h]
  dsimp only
  cases envelopeClocks lib name <;> simp [Functor.map, Except.map, eq_comm]

/-- The envelope is found exactly if there is one for the style to play. -/
theorem exists_findEnvelope_iff (hvalid : ps.validate style = .ok ()) :
    (∃ env, findEnvelope ps lib = .ok env ∧ (style ≠ .const → env = some (addr, clocks))) ↔
      Locates style ps lib addr clocks := by
  have hsome := Params.isSome_envelope_iff hvalid
  unfold Locates
  cases henv : ps.envelope with
  | none =>
    have hconst : style = .const := by simpa [henv] using hsome
    simp [hconst, findEnvelope, henv, pure, Except.pure]
  | some name =>
    have hplays : style ≠ .const := by simpa [henv] using hsome
    simp only [findEnvelope_eq_ok_iff henv, envelopeClocks_eq_ok_iff]
    constructor
    · rintro ⟨env, ⟨_, ⟨e, he, rfl⟩, rfl⟩, h⟩ -
      obtain ⟨rfl, rfl⟩ := Prod.mk.inj (Option.some.inj (h hplays))
      exact ⟨name, e, rfl, he, rfl, rfl⟩
    · intro h
      obtain ⟨name', e, hname, he, haddr, hclocks⟩ := h hplays
      obtain rfl := Option.some.inj hname
      exact ⟨_, ⟨_, ⟨e, he, rfl⟩, rfl⟩, fun _ => by rw [haddr, hclocks]⟩

theorem compile_eq (style : Style) (ps : Params) (ch : ℕ) (board : Board) (lib : EnvelopeLibrary) :
    compile style ps ch board lib =
      ps.validate style >>= fun _ => carrier style ps ch board >>= fun c => findEnvelope ps lib >>= fun env =>
        segments style c ps env >>= fun segs =>
          pure ⟨style, ps, segs.waves, segs.offsets, segs.waves.foldl (fun n w => n + w.length.toNat) 0⟩ := by
  unfold compile findEnvelope
  cases ps.envelope <;> rfl

/-- A pulse compiles exactly if its parameters pass the check and can be turned into words,
its envelope is found, and each segment of its plan can be played. -/
theorem compile_eq_ok_iff {pulse : Pulse} :
    compile style ps ch board lib = .ok pulse ↔
      ps.validate style = .ok () ∧ ∃ c addr clocks ws, carrier style ps ch board = .ok c ∧
        Locates style ps lib addr clocks ∧ (plan style c ps addr clocks).mapM c.play = .ok ws ∧
        pulse = ⟨style, ps, ws, starts ((plan style c ps addr clocks).map (·.length)),
          ws.foldl (fun n w => n + w.length.toNat) 0⟩ := by
  rw [compile_eq, seq_eq_ok_iff]
  refine and_congr_right fun hvalid => ?_
  constructor
  · intro h
    obtain ⟨c, hc, h⟩ := bind_eq_ok_iff.mp h
    obtain ⟨env, henv, h⟩ := bind_eq_ok_iff.mp h
    obtain ⟨segs, hsegs, h⟩ := bind_eq_ok_iff.mp h
    cases h
    -- with a missing envelope there would be no segments
    obtain ⟨addr, clocks, hplayed⟩ := exists_env_of_segments hsegs
    rw [segments_eq hplayed] at hsegs
    obtain ⟨ws, hws, h⟩ := bind_eq_ok_iff.mp hsegs
    cases h
    exact ⟨c, addr, clocks, ws, hc, (exists_findEnvelope_iff hvalid).mp ⟨env, henv, hplayed⟩, hws, rfl⟩
  · rintro ⟨c, addr, clocks, ws, hc, hlocates, hws, rfl⟩
    obtain ⟨env, henv, hplayed⟩ := (exists_findEnvelope_iff hvalid).mpr hlocates
    refine bind_eq_ok_iff.mpr ⟨c, hc, bind_eq_ok_iff.mpr ⟨env, henv, ?_⟩⟩
    rw [segments_eq hplayed, hws]
    rfl

/-- A pulse has an offset for each of its segments. -/
theorem length_offsets_of_compile {pulse : Pulse} (h : compile style ps ch board lib = .ok pulse) :
    pulse.offsets.length = pulse.waves.length := by
  obtain ⟨-, c, addr, clocks, ws, -, -, hws, rfl⟩ := compile_eq_ok_iff.mp h
  show (starts ((plan style c ps addr clocks).map (·.length))).length = ws.length
  rw [starts, List.length_map, List.length_range, List.length_map, (mapM_eq_ok_iff.mp hws).length_eq]

/-! ### Waves -/

/-- The words of a carrier are ones of the generator. -/
structure Carrier.Fits (c : Carrier) (g : Generator) : Prop where
  freq : c.freq < 2 ^ g.ddsBits
  gain : g.Takes c.gain

variable {g : Generator} {s : Segment} {w : Wave}

theorem fits_of_carrier (hg : board.gen ch = .ok g) (hbits : g.ddsBits ≤ 32) (h : carrier style ps ch board = .ok c) :
    c.Fits g := by
  unfold carrier at h
  split at h
  · obtain ⟨freq, hfreq, h⟩ := bind_eq_ok_iff.mp h
    obtain ⟨phase, -, h⟩ := bind_eq_ok_iff.mp h
    obtain ⟨gain, hgain, h⟩ := bind_eq_ok_iff.mp h
    cases h
    exact ⟨Board.freqToReg_lt hg hbits hfreq, Board.takes_of_gainToReg hg hgain⟩
  · cases h

/-- A segment is played exactly if its length is in range. -/
theorem Carrier.exists_play_iff : (∃ w, c.play s = .ok w) ↔ 3 ≤ s.length ∧ s.length < 2 ^ 16 := by
  unfold play wave
  by_cases h : minLength ≤ s.length ∧ s.length < lengthLimit
  · rw [if_pos h]
    exact iff_of_true ⟨_, rfl⟩ h
  · rw [if_neg h]
    exact iff_of_false (by simp) h

/-- What the wave of a segment is. -/
structure Carrier.Plays (c : Carrier) (s : Segment) (w : Wave) : Prop where
  length : w.length.toNat = s.length
  length_ge : 3 ≤ s.length
  length_lt : s.length < 2 ^ 16
  freq : w.freq.toNat = c.freq
  gain : w.gain.toInt = s.gain
  env : w.env.toNat = s.env
  conf_lt : w.conf.toNat < 32
  resetsPhase : w.resetsPhase = s.phaseReset.getD false

/-- The segments of a plan have the gain of the carrier or half of it, and start within the
envelope. -/
theorem mem_plan (h : s ∈ plan style c ps addr clocks) :
    (s.gain = c.gain ∨ s.gain = c.gain.tdiv 2) ∧ (s.env = 0 ∨ style ≠ .const ∧ s.env ≤ addr + clocks) := by
  cases style with
  | const =>
    obtain rfl := List.mem_singleton.mp h
    exact ⟨Or.inl rfl, Or.inl rfl⟩
  | arb =>
    obtain rfl := List.mem_singleton.mp h
    exact ⟨Or.inl rfl, Or.inr ⟨by decide, Nat.le_add_right _ _⟩⟩
  | flatTop =>
    simp only [plan, List.mem_cons, List.not_mem_nil, or_false] at h
    rcases h with rfl | rfl | rfl
    · exact ⟨Or.inl rfl, Or.inr ⟨by decide, Nat.le_add_right _ _⟩⟩
    · exact ⟨Or.inr rfl, Or.inl rfl⟩
    · exact ⟨Or.inl rfl, Or.inr ⟨by decide, by dsimp only; omega⟩⟩

theorem Carrier.Fits.takes_of_mem_plan (hc : c.Fits g) (h : s ∈ plan style c ps addr clocks) : g.Takes s.gain := by
  rcases (mem_plan h).1 with hgain | hgain
  · exact hgain ▸ hc.gain
  · exact hgain ▸ hc.gain.half

theorem Carrier.Fits.plays (hc : c.Fits g) (hbits : g.ddsBits ≤ 32) (hgain : g.Takes s.gain) (henv : s.env < 2 ^ 32)
    (h : c.play s = .ok w) : c.Plays s w := by
  obtain ⟨hge, hlt⟩ := Carrier.exists_play_iff.mp ⟨w, h⟩
  have hfreq : c.freq < 2 ^ 32 := Nat.lt_of_lt_of_le hc.freq (Nat.pow_le_pow_right (by decide) hbits)
  obtain ⟨hconf, hreset⟩ := outputConfig_bounds (some s.source) s.mode c.idle s.phaseReset
  have hword : (UInt16.ofNat (outputConfig (some s.source) s.mode c.idle s.phaseReset)).toNat =
      outputConfig (some s.source) s.mode c.idle s.phaseReset :=
    UInt16.toNat_ofNat_of_lt' (Nat.lt_trans hconf (by decide))
  unfold play wave at h
  rw [if_pos ⟨hge, hlt⟩] at h
  cases h
  exact {
    length := UInt32.toNat_ofNat_of_lt' (Nat.lt_trans hlt (by decide))
    length_ge := hge
    length_lt := hlt
    freq := UInt32.toNat_ofNat_of_lt' hfreq
    gain := Int32.toInt_ofInt_of_le hgain.ge (Int.lt_add_one_of_le hgain.le)
    env := UInt32.toNat_ofNat_of_lt' henv
    conf_lt := hword.trans_lt hconf
    resetsPhase := (congrArg (Nat.testBit · 4) hword).trans hreset }

/-! ### Envelopes in clocks -/

/-- The envelope that a pulse plays is a whole number of clocks long and starts at one. -/
theorem Locates.exists_envelope (hp : lib.Packed) (hstyle : style ≠ .const) (h : Locates style ps lib addr clocks) :
    ∃ name e, ps.envelope = some name ∧ lib.get name = .ok e ∧ addr * lib.samplesPerClock = e.addr ∧
      clocks * lib.samplesPerClock = e.length ∧ addr + clocks ≤ EnvelopeLibrary.sampleCount lib.envelopes := by
  obtain ⟨name, e, hname, he, rfl, rfl⟩ := h hstyle
  have hmem := EnvelopeLibrary.mem_of_find? (EnvelopeLibrary.get_eq_ok_iff.mp he)
  refine ⟨name, e, hname, he, Nat.div_mul_cancel (hp.dvd_addr hmem), Nat.div_mul_cancel (hp.clocks e hmem), ?_⟩
  calc e.addr / lib.samplesPerClock + e.length / lib.samplesPerClock
      ≤ e.addr + e.length := Nat.add_le_add (Nat.div_le_self _ _) (Nat.div_le_self _ _)
    _ ≤ EnvelopeLibrary.sampleCount lib.envelopes := hp.addr_add_length_le hmem

/-- No word of a planned segment is cut off in its wave. -/
theorem plays_of_mem_plan (hc : c.Fits g) (hbits : g.ddsBits ≤ 32) (hp : lib.Packed)
    (hcount : EnvelopeLibrary.sampleCount lib.envelopes < 2 ^ 32) (hlocates : Locates style ps lib addr clocks)
    (hs : s ∈ plan style c ps addr clocks) (h : c.play s = .ok w) : c.Plays s w := by
  have henv : s.env < 2 ^ 32 := by
    -- the down ramp starts behind the up ramp, but still within the envelope
    rcases (mem_plan hs).2 with henv | ⟨hstyle, henv⟩
    · omega
    · obtain ⟨name, e, -, -, -, -, hle⟩ := hlocates.exists_envelope hp hstyle
      omega
  exact hc.plays hbits (hc.takes_of_mem_plan hs) henv h

/-! ### Lengths -/

/-- The lengths of waves, taken together. -/
def totalLength (ws : List Wave) : ℕ := (ws.map (·.length.toNat)).sum

theorem foldl_length (ws : List Wave) (n : ℕ) :
    ws.foldl (fun n w => n + w.length.toNat) n = n + totalLength ws := by
  induction ws generalizing n with
  | nil => rfl
  | cons w ws ih => rw [List.foldl_cons, ih, totalLength, totalLength, List.map_cons, List.sum_cons, Nat.add_assoc]

theorem totalLength_le {ws : List Wave} {n : ℕ} (h : ∀ w ∈ ws, w.length.toNat < n) : totalLength ws ≤ ws.length * n := by
  induction ws with
  | nil => exact Nat.zero_le _
  | cons w ws ih =>
    obtain ⟨hw, hws⟩ := List.forall_mem_cons.mp h
    have hle := ih hws
    rw [totalLength, List.map_cons, List.sum_cons, List.length_cons, Nat.succ_mul, Nat.add_comm]
    exact Nat.add_le_add hle (Nat.le_of_lt hw)

theorem length_plan (style : Style) (c : Carrier) (ps : Params) (addr clocks : ℕ) :
    (plan style c ps addr clocks).length = if style = .flatTop then 3 else 1 := by
  cases style <;> rfl

theorem eq_of_getElem?_starts {lengths : List ℕ} {k off : ℕ} (h : (starts lengths)[k]? = some off) :
    off = (lengths.take k).sum := by
  unfold starts at h
  rw [List.getElem?_map] at h
  obtain ⟨j, hj, rfl⟩ := Option.map_eq_some_iff.mp h
  obtain ⟨hlt, hget⟩ := List.getElem?_eq_some_iff.mp hj
  rw [List.getElem_range] at hget
  rw [hget]

/-! ### Pulses -/

/-- A pulse is made of segments: it has their waves, one behind the other. -/
structure Follows (pulse : Pulse) (c : Carrier) (ss : List Segment) : Prop where
  waves : List.Forall₂ c.Plays ss pulse.waves
  offsets : pulse.offsets = starts (ss.map (·.length))
  length : pulse.length = totalLength pulse.waves

namespace Follows

variable {pulse : Pulse} {ss : List Segment}

theorem exists_segment (h : pulse.Follows c ss) (hw : w ∈ pulse.waves) : ∃ s ∈ ss, c.Plays s w := by
  obtain ⟨k, hk, rfl⟩ := List.getElem_of_mem hw
  have hlength := h.waves.length_eq
  exact ⟨_, List.getElem_mem (by omega), List.forall₂_iff_get.mp h.waves |>.2 k (by omega) hk⟩

theorem lengths (h : pulse.Follows c ss) : ss.map (·.length) = pulse.waves.map (·.length.toNat) := by
  rw [← List.forall₂_eq_eq_eq, List.forall₂_map_left_iff, List.forall₂_map_right_iff]
  exact h.waves.imp fun s w hw => hw.length.symm

/-- No wave of a plan is out of range. -/
theorem bounds (h : pulse.Follows c (plan style c ps addr clocks)) (hc : c.Fits g) (hw : w ∈ pulse.waves) :
    3 ≤ w.length.toNat ∧ w.length.toNat < 2 ^ 16 ∧ w.gain.toInt.natAbs ≤ g.fullScale.natAbs ∧
      w.freq.toNat < 2 ^ g.ddsBits ∧ w.conf.toNat < 32 := by
  obtain ⟨s, hs, hplays⟩ := h.exists_segment hw
  rw [hplays.length, hplays.gain, hplays.freq]
  exact ⟨hplays.length_ge, hplays.length_lt, (hc.takes_of_mem_plan hs).natAbs_le, hc.freq, hplays.conf_lt⟩

/-- Every segment starts where the one before it ends. -/
theorem offset (h : pulse.Follows c ss) {k off : ℕ} (hk : pulse.offsets[k]? = some off) :
    off = totalLength (pulse.waves.take k) := by
  rw [h.offsets, h.lengths] at hk
  rw [eq_of_getElem?_starts hk, totalLength, List.map_take]

/-- The wave of a pulse of one segment. -/
theorem singleton (h : pulse.Follows c [s]) : ∃ w, pulse.waves = [w] ∧ c.Plays s w := by
  obtain ⟨w, ws, hw, hnil, hws⟩ := List.forall₂_cons_left_iff.mp h.waves
  obtain rfl := List.forall₂_nil_left_iff.mp hnil
  exact ⟨w, hws, hw⟩

/-- The waves of a pulse of three segments. -/
theorem triple {s₁ s₂ s₃ : Segment} (h : pulse.Follows c [s₁, s₂, s₃]) :
    ∃ w₁ w₂ w₃, pulse.waves = [w₁, w₂, w₃] ∧ c.Plays s₁ w₁ ∧ c.Plays s₂ w₂ ∧ c.Plays s₃ w₃ := by
  obtain ⟨w₁, rest₁, hw₁, hrest₁, hws⟩ := List.forall₂_cons_left_iff.mp h.waves
  obtain ⟨w₂, rest₂, hw₂, hrest₂, rfl⟩ := List.forall₂_cons_left_iff.mp hrest₁
  obtain ⟨w₃, rest₃, hw₃, hnil, rfl⟩ := List.forall₂_cons_left_iff.mp hrest₂
  obtain rfl := List.forall₂_nil_left_iff.mp hnil
  exact ⟨w₁, w₂, w₃, hws, hw₁, hw₂, hw₃⟩

end Follows

/-- A pulse compiles exactly if its parameters pass the check and can be turned into words,
its envelope is found, and the length of each segment of its plan is in range. -/
theorem exists_compile_iff :
    (∃ pulse, compile style ps ch board lib = .ok pulse) ↔
      ps.validate style = .ok () ∧ ∃ c addr clocks, carrier style ps ch board = .ok c ∧
        Locates style ps lib addr clocks ∧ ∀ s ∈ plan style c ps addr clocks, 3 ≤ s.length ∧ s.length < 2 ^ 16 := by
  have hplayed : ∀ (c : Carrier) (ss : List Segment),
      (∃ ws, ss.mapM c.play = .ok ws) ↔ ∀ s ∈ ss, 3 ≤ s.length ∧ s.length < 2 ^ 16 :=
    fun c ss => exists_mapM_iff.trans (forall₂_congr fun s _ => Carrier.exists_play_iff)
  constructor
  · rintro ⟨pulse, h⟩
    obtain ⟨hvalid, c, addr, clocks, ws, hc, hlocates, hws, -⟩ := compile_eq_ok_iff.mp h
    exact ⟨hvalid, c, addr, clocks, hc, hlocates, (hplayed _ _).mp ⟨ws, hws⟩⟩
  · rintro ⟨hvalid, c, addr, clocks, hc, hlocates, hlengths⟩
    obtain ⟨ws, hws⟩ := (hplayed _ _).mpr hlengths
    exact ⟨_, compile_eq_ok_iff.mpr ⟨hvalid, c, addr, clocks, ws, hc, hlocates, hws, rfl⟩⟩

/-- A pulse that compiles follows its plan, and no word is cut off. -/
theorem exists_follows_of_compile {pulse : Pulse} (hg : board.gen ch = .ok g) (hbits : g.ddsBits ≤ 32)
    (hp : lib.Packed) (hcount : EnvelopeLibrary.sampleCount lib.envelopes < 2 ^ 32)
    (h : compile style ps ch board lib = .ok pulse) :
    ps.validate style = .ok () ∧ ∃ c addr clocks, c.Fits g ∧ Locates style ps lib addr clocks ∧
      pulse.Follows c (plan style c ps addr clocks) := by
  obtain ⟨hvalid, c, addr, clocks, ws, hc, hlocates, hws, rfl⟩ := compile_eq_ok_iff.mp h
  have hfits := fits_of_carrier hg hbits hc
  refine ⟨hvalid, c, addr, clocks, hfits, hlocates, ?_, rfl, ?_⟩
  · have hplayed := (List.forall₂_and_left _ _).mpr ⟨fun s hs => hs, mapM_eq_ok_iff.mp hws⟩
    exact hplayed.imp fun s w hw => plays_of_mem_plan hfits hbits hp hcount hlocates hw.1 hw.2
  · exact (foldl_length ws 0).trans (Nat.zero_add _)

end Pulse

/-! ### What the ramps of a flat top read -/

/-- The wave plays this clock of the envelope table. -/
def Wave.Reads (w : Wave) (t : ℕ) : Prop := w.env.toNat ≤ t ∧ t < w.env.toNat + w.length.toNat

/-- Two waves that play the halves of an envelope share no clock of it, and leave out the
middle one of an odd number only. -/
theorem Wave.reads_halves {up down : Wave} {addr clocks : ℕ} (hup : up.env.toNat = addr)
    (hupLength : up.length.toNat = clocks / 2) (hdown : down.env.toNat = addr + (clocks + 1) / 2)
    (hdownLength : down.length.toNat = clocks / 2) :
    (∀ t, up.Reads t ↔ addr ≤ t ∧ t < addr + clocks / 2) ∧
    (∀ t, down.Reads t ↔ addr + (clocks + 1) / 2 ≤ t ∧ t < addr + clocks) ∧
    (∀ t, ¬ (up.Reads t ∧ down.Reads t)) ∧
    ∀ t, up.Reads t ∨ down.Reads t ↔
      (addr ≤ t ∧ t < addr + clocks) ∧ ¬ (clocks % 2 = 1 ∧ t = addr + clocks / 2) := by
  unfold Reads
  rw [hup, hupLength, hdown, hdownLength]
  refine ⟨fun t => Iff.rfl, fun t => ?_, fun t => ?_, fun t => ?_⟩ <;> omega

open Pulse in
/-- **Pulses have the geometry of their style**: a pulse compiles exactly if its parameters
suit the style and can be turned into words, its envelope is found, and each segment is at
least 3 and less than `2 ^ 16` clocks long. A constant or arbitrary pulse has one wave then
and a flat top has three, each of which starts where the one before it ends, and no word of
them is out of range. A constant pulse has the length that is asked for. An arbitrary one
plays its envelope from the first sample to the last. The ramps of a flat top play the
halves of the envelope, without its middle clock if their number is odd; the flat part has
the length that is asked for and half the gain, cut towards zero. The phase starts anew at
the first segment only, if at all. -/
theorem pulse_geometry {style : Style} {ps : Params} {ch : ℕ} {board : Board} {g : Generator}
    {rs : List EnvelopeRequest} {lib : EnvelopeLibrary} (hboard : board.validate = .ok ()) (hg : board.gen ch = .ok g)
    (hlib : (EnvelopeLibrary.ofGen ch g).requestAll rs = lib)
    (hcount : EnvelopeLibrary.sampleCount lib.envelopes < 2 ^ 32) :
    ((∃ pulse, compile style ps ch board lib = .ok pulse) ↔
      ps.validate style = .ok () ∧ ∃ c addr clocks, carrier style ps ch board = .ok c ∧
        Locates style ps lib addr clocks ∧ ∀ s ∈ plan style c ps addr clocks, 3 ≤ s.length ∧ s.length < 2 ^ 16) ∧
    ∀ pulse, compile style ps ch board lib = .ok pulse →
      pulse.waves.length = (if style = .flatTop then 3 else 1) ∧ pulse.offsets.length = pulse.waves.length ∧
      (∀ (k off : ℕ), pulse.offsets[k]? = some off → off = totalLength (pulse.waves.take k)) ∧
      pulse.length = totalLength pulse.waves ∧ pulse.length < 2 ^ 32 ∧
      (∀ w ∈ pulse.waves, 3 ≤ w.length.toNat ∧ w.length.toNat < 2 ^ 16 ∧
        w.gain.toInt.natAbs ≤ g.fullScale.natAbs ∧ w.freq.toNat < 2 ^ g.ddsBits ∧ w.conf.toNat < 32) ∧
      (style = .const → ∃ w, pulse.waves = [w] ∧ ps.length = some w.length.toNat ∧ w.env.toNat = 0 ∧
        w.resetsPhase = ps.phaseReset.getD false) ∧
      (style = .arb → ∃ name e w, ps.envelope = some name ∧ lib.get name = .ok e ∧ pulse.waves = [w] ∧
        w.env.toNat * g.samplesPerClock = e.addr ∧ w.length.toNat * g.samplesPerClock = e.length ∧
        w.resetsPhase = ps.phaseReset.getD false) ∧
      (style = .flatTop → ∃ name e addr clocks up flat down, ps.envelope = some name ∧ lib.get name = .ok e ∧
        addr * g.samplesPerClock = e.addr ∧ clocks * g.samplesPerClock = e.length ∧ pulse.waves = [up, flat, down] ∧
        (∀ t, up.Reads t ↔ addr ≤ t ∧ t < addr + clocks / 2) ∧
        (∀ t, down.Reads t ↔ addr + (clocks + 1) / 2 ≤ t ∧ t < addr + clocks) ∧
        (∀ t, ¬ (up.Reads t ∧ down.Reads t)) ∧
        (∀ t, up.Reads t ∨ down.Reads t ↔
          (addr ≤ t ∧ t < addr + clocks) ∧ ¬ (clocks % 2 = 1 ∧ t = addr + clocks / 2)) ∧
        ps.length = some flat.length.toNat ∧ flat.gain.toInt = up.gain.toInt.tdiv 2 ∧ down.gain = up.gain ∧
        flat.env.toNat = 0 ∧ up.resetsPhase = ps.phaseReset.getD false ∧ flat.resetsPhase = false ∧
        down.resetsPhase = false) := by
  obtain ⟨hp, hclock⟩ := EnvelopeLibrary.requestAll_keeps (EnvelopeLibrary.packed_ofGen ch g) rs
  rw [hlib] at hp hclock
  have hclock : lib.samplesPerClock = g.samplesPerClock := hclock
  have hbits : g.ddsBits ≤ 32 := by
    obtain ⟨-, -, hgens, -⟩ := Board.validate_eq_ok_iff.mp hboard
    exact (hgens ch g (Board.gen_eq_ok_iff.mp hg)).2.1.2
  refine ⟨exists_compile_iff, fun pulse h => ?_⟩
  obtain ⟨hvalid, c, addr, clocks, hfits, hlocates, hfollows⟩ := exists_follows_of_compile hg hbits hp hcount h
  have hwaves : pulse.waves.length = if style = .flatTop then 3 else 1 :=
    hfollows.waves.length_eq.symm.trans (length_plan ..)
  have hlength : pulse.length < 2 ^ 32 := by
    have hle := totalLength_le fun w hw => (hfollows.bounds hfits hw).2.1
    rw [hfollows.length]
    split at hwaves <;> omega
  refine ⟨hwaves, length_offsets_of_compile h, fun k off => hfollows.offset, hfollows.length, hlength,
    fun w => hfollows.bounds hfits, ?_, ?_, ?_⟩
  · rintro rfl
    obtain ⟨n, hn⟩ := Option.isSome_iff_exists.mp (Params.isSome_length hvalid (by decide))
    obtain ⟨w, hws, hw⟩ := hfollows.singleton
    refine ⟨w, hws, ?_, hw.env, hw.resetsPhase⟩
    rw [hw.length, hn, Option.getD_some]
  · rintro rfl
    obtain ⟨name, e, hname, he, haddr, hclocks, -⟩ := hlocates.exists_envelope hp (by decide)
    obtain ⟨w, hws, hw⟩ := hfollows.singleton
    refine ⟨name, e, w, hname, he, hws, ?_, ?_, hw.resetsPhase⟩
    · rw [hw.env, ← hclock, haddr]
    · rw [hw.length, ← hclock, hclocks]
  · rintro rfl
    obtain ⟨n, hn⟩ := Option.isSome_iff_exists.mp (Params.isSome_length hvalid (by decide))
    obtain ⟨name, e, hname, he, haddr, hclocks, -⟩ := hlocates.exists_envelope hp (by decide)
    obtain ⟨up, flat, down, hws, hup, hflat, hdown⟩ := hfollows.triple
    obtain ⟨hreadsUp, hreadsDown, hdisjoint, hunion⟩ := Wave.reads_halves hup.env hup.length hdown.env hdown.length
    refine ⟨name, e, addr, clocks, up, flat, down, hname, he, hclock ▸ haddr, hclock ▸ hclocks, hws, hreadsUp,
      hreadsDown, hdisjoint, hunion, ?_, ?_, ?_, hflat.env, hup.resetsPhase, hflat.resetsPhase, hdown.resetsPhase⟩
    · rw [hflat.length, hn, Option.getD_some]
    · rw [hflat.gain, hup.gain]
    · rw [← Int32.toInt_inj, hdown.gain, hup.gain]

/-- A board with one generator, which plays two samples in a clock. -/
def rampBoard : Board := ⟨1, 32, 384.0, [], [{ samplesPerClock := 2 }], []⟩

/-- An envelope of one clock and one of seven. -/
def rampLibrary : EnvelopeLibrary :=
  (EnvelopeLibrary.ofGen 0 { samplesPerClock := 2 }).requestAll
    [⟨"pad", some [1.0, 1.0], none⟩, ⟨"ramp", some (List.replicate 14 5.0), none⟩]

/-- A flat top of negative gain. -/
def rampParams : Params where
  freq := some 100.0
  phase := some 0.0
  gain := some (-0.5)
  length := some 10
  envelope := some "ramp"
  phaseReset := some true

/-- The seven clocks of the envelope stand behind the first: the ramps play three of them
each and leave out the fourth, and half of an odd gain below zero is cut towards zero. -/
theorem pulse_geometry_odd_ramp :
    ∃ pulse up flat down, Pulse.compile .flatTop rampParams 0 rampBoard rampLibrary = .ok pulse ∧
      pulse.waves = [up, flat, down] ∧ pulse.offsets = [0, 3, 13] ∧ pulse.length = 16 ∧
      (∀ t, up.Reads t ∨ down.Reads t ↔ (1 ≤ t ∧ t < 8) ∧ t ≠ 4) ∧
      up.gain.toInt = -16383 ∧ flat.gain.toInt = -8191 ∧
      up.resetsPhase = true ∧ flat.resetsPhase = false ∧ down.resetsPhase = false := by
  have hlib : (EnvelopeLibrary.ofGen 0 { samplesPerClock := 2 }).requestAll
    [⟨"pad", some [1.0, 1.0], none⟩, ⟨"ramp", some (List.replicate 14 5.0), none⟩] = rampLibrary := rfl
  obtain ⟨-, hgeometry⟩ := @pulse_geometry .flatTop rampParams 0 rampBoard _ _ _ rfl rfl hlib (by decide +kernel)
  have hrun : (Pulse.compile .flatTop rampParams 0 rampBoard rampLibrary).toOption.map
      (fun p => (p.offsets, p.length, p.waves.map (·.gain.toInt))) =
        some ([0, 3, 13], 16, [-16383, -8191, -16383]) := by decide +kernel
  have hramp : (rampLibrary.get "ramp").toOption.map (fun e => (e.addr, e.length)) = some (2, 14) := by
    decide +kernel
  cases hcompile : Pulse.compile .flatTop rampParams 0 rampBoard rampLibrary with
  | error err =>
    rw [hcompile] at hrun
    cases hrun
  | ok pulse =>
    obtain ⟨-, -, -, -, -, -, -, -, hflatTop⟩ := hgeometry pulse hcompile
    obtain ⟨name, e, addr, clocks, up, flat, down, hname, he, haddr, hclocks, hwaves, -, -, -, hreads, -, hhalf, -, -,
      hup, hflat, hdown⟩ := hflatTop rfl
    obtain rfl := Option.some.inj hname
    rw [he] at hramp
    rw [hcompile] at hrun
    simp only [Except.toOption, Option.map_some, Option.some.injEq, Prod.mk.injEq] at hramp hrun
    obtain ⟨hoffsets, hlength, hgains⟩ := hrun
    simp only [hwaves, List.map_cons, List.map_nil, List.cons.injEq, and_true] at hgains
    have haddr : addr * 2 = e.addr := haddr
    have hclocks : clocks * 2 = e.length := hclocks
    obtain ⟨rfl, rfl⟩ : addr = 1 ∧ clocks = 7 := by omega
    refine ⟨pulse, up, flat, down, rfl, hwaves, hoffsets, hlength, fun t => (hreads t).trans ?_, hgains.1, ?_, hup,
      hflat, hdown⟩
    · omega
    · rw [hhalf, hgains.1]
      rfl

end PulseAsm
