import PulseAsm.Program.Builder
import PulseAsm.Proofs.Keys
import PulseAsm.Proofs.Outcome
import PulseAsm.Proofs.Program.Build
import Mathlib.Algebra.BigOperators.Ring.List
import Mathlib.Algebra.Ring.Nat

/-!
# Envelopes and their memory

When an envelope is added to a library (`EnvelopeLibrary.add_eq_ok_iff`), and where its
samples are found in the memory image.

A library keeps the address of the next envelope in a counter and the places of names
in an index, while the image is made of the envelopes alone. What ties these together is
`EnvelopeLibrary.Packed`: the envelopes stand one behind the other, each of whole clocks,
and the index finds each under a name of its own. Every request keeps it, whether it is
met or not: one that is refused has not written anything yet
(`EnvelopeLibrary.addInPlace_apply`).
-/

namespace PulseAsm

open Binary64

/-! ### Samples -/

theorem toNat_sampleWord (i q : Int16) :
    (sampleWord i q).toNat = i.toUInt16.toNat + q.toUInt16.toNat * 2 ^ 16 := by
  have hi := i.toUInt16.toNat_lt
  have hq := q.toUInt16.toNat_lt
  unfold sampleWord
  rw [UInt32.toNat_ofNat', Nat.shiftLeft_eq]
  omega

/-- The low half of a word is the I sample. -/
theorem low_sampleWord (i q : Int16) : (sampleWord i q).toUInt16.toInt16 = i := by
  have hi := i.toUInt16.toNat_lt
  have hhalf : (sampleWord i q).toUInt16 = i.toUInt16 := by
    rw [← UInt16.toNat_inj, UInt32.toNat_toUInt16, toNat_sampleWord]
    omega
  rw [hhalf, Int16.toInt16_toUInt16]

/-- The high half of a word is the Q sample; the sign of the I sample does not reach it. -/
theorem high_sampleWord (i q : Int16) : (sampleWord i q >>> 16).toUInt16.toInt16 = q := by
  have hi := i.toUInt16.toNat_lt
  have hq := q.toUInt16.toNat_lt
  have hhalf : (sampleWord i q >>> 16).toUInt16 = q.toUInt16 := by
    have hshift : (16 : UInt32).toNat % 32 = 16 := rfl
    rw [← UInt16.toNat_inj, UInt32.toNat_toUInt16, UInt32.toNat_shiftRight, toNat_sampleWord, hshift,
      Nat.shiftRight_eq_div_pow]
    omega
  rw [hhalf, Int16.toInt16_toUInt16]

/-- An integer that is cut or rounded from a double within a range is in the range. -/
theorem mem_range_of_filter {lo hi n : ℤ} {o : Option ℤ} (h : o.filter (fun n => lo ≤ n ∧ n ≤ hi) = some n) :
    lo ≤ n ∧ n ≤ hi :=
  of_decide_eq_true (Option.filter_eq_some_iff.mp h).2

/-- A sample is the nearest integer, if that has 16 bits. -/
theorem toSample_eq_ok_iff {name : String} {x : Float} {s : Int16} :
    toSample name x = .ok s ↔ roundIn? (-0x8000) 0x7FFF x = some s.toInt := by
  unfold toSample
  cases h : roundIn? (-0x8000) 0x7FFF x with
  | none => simp
  | some n =>
    have hn := mem_range_of_filter h
    have htoInt : (Int16.ofInt n).toInt = n := Int16.toInt_ofInt_of_le hn.1 (by omega)
    simp only [Except.ok.injEq, Option.some.injEq]
    rw [← Int16.toInt_inj, htoInt]

/-- The samples of a component: each is rounded, and one that is not given is all zeros. -/
structure Sampled (length : ℕ) (d : Option (List Float)) (ss : List Int16) : Prop where
  given : ∀ xs, d = some xs → List.Forall₂ (fun x s => roundIn? (-0x8000) 0x7FFF x = some s.toInt) xs ss
  missing : d = none → ss = List.replicate length 0

theorem toSamples_eq_ok_iff {name : String} {length : ℕ} {d : Option (List Float)} {ss : List Int16} :
    toSamples name length d = .ok ss ↔ Sampled length d ss := by
  cases d with
  | none =>
    rw [toSamples, Except.ok.injEq]
    exact ⟨fun h => ⟨by simp, fun _ => h.symm⟩, fun h => (h.missing rfl).symm⟩
  | some xs =>
    simp only [toSamples, mapM_eq_ok_iff, toSample_eq_ok_iff]
    exact ⟨fun h => ⟨fun _ hd => Option.some.inj hd ▸ h, by simp⟩, fun h => h.given xs rfl⟩

theorem Sampled.length_eq {length : ℕ} {d : Option (List Float)} {ss : List Int16} (h : Sampled length d ss)
    (hd : ∀ xs, d = some xs → xs.length = length) : ss.length = length := by
  cases d with
  | none => rw [h.missing rfl, List.length_replicate]
  | some xs => rw [← (h.given xs rfl).length_eq, hd xs rfl]

/-- A component has samples exactly if each of its numbers rounds to 16 bits. -/
theorem exists_sampled_iff {length : ℕ} {d : Option (List Float)} :
    (∃ ss, Sampled length d ss) ↔ ∀ xs, d = some xs → ∀ x ∈ xs, ∃ n, roundIn? (-0x8000) 0x7FFF x = some n := by
  simp only [← @toSamples_eq_ok_iff ""]
  cases d with
  | none => simp [toSamples]
  | some xs =>
    simp only [toSamples, exists_mapM_iff, Option.some.injEq, forall_eq']
    refine forall₂_congr fun x _ => ?_
    unfold toSample
    cases roundIn? (-0x8000) 0x7FFF x <;> simp

/-! ### Requests -/

/-- What a library is asked for: an envelope under a name, with one component or both. -/
structure EnvelopeRequest where
  /-- The name. -/
  name : String
  /-- The I samples, before they are rounded. -/
  idata : Option (List Float)
  /-- The Q samples, before they are rounded. -/
  qdata : Option (List Float)

namespace EnvelopeRequest

/-- The components that are given. -/
def components (r : EnvelopeRequest) : List (List Float) := r.idata.toList ++ r.qdata.toList

/-- The largest magnitude of a sample. -/
def peak (r : EnvelopeRequest) : Float := r.components.flatten.foldl raisePeak 0.0

variable {r : EnvelopeRequest} {n : ℕ}

theorem forall_mem_components {P : List Float → Prop} :
    (∀ xs ∈ r.components, P xs) ↔ (∀ xs, r.idata = some xs → P xs) ∧ ∀ xs, r.qdata = some xs → P xs := by
  simp only [components, List.mem_append, Option.mem_toList, or_imp, forall_and]

theorem commonLength_eq_ok_iff :
    EnvelopeLibrary.commonLength r.name r.idata r.qdata = .ok n ↔
      r.components ≠ [] ∧ ∀ xs ∈ r.components, xs.length = n := by
  obtain ⟨name, i, q⟩ := r
  unfold components
  cases i with
  | none => cases q <;> simp [EnvelopeLibrary.commonLength]
  | some xs =>
    cases q with
    | none => simp [EnvelopeLibrary.commonLength]
    | some ys =>
      by_cases h : xs.length = ys.length
      · simp [EnvelopeLibrary.commonLength, h]
      · simp only [EnvelopeLibrary.commonLength, h, if_false]
        constructor
        · intro h'
          cases h'
        · intro h'
          simp at h'
          omega

end EnvelopeRequest

namespace EnvelopeLibrary

variable {lib lib' : EnvelopeLibrary} {r : EnvelopeRequest} {n : ℕ} {e : Envelope}

/-- The index finds each envelope under its name, and nothing else. -/
def Indexed (lib : EnvelopeLibrary) : Prop := Indexes lib.index (·.name) lib.envelopes

theorem Indexed.lookup_eq_none_iff {name : String} (h : lib.Indexed) :
    lib.index.lookup name = none ↔ ∀ e ∈ lib.envelopes, e.name ≠ name :=
  Indexes.lookup_eq_none_iff h

theorem mem_of_find? {name : String} (h : lib.find? name = some e) : e ∈ lib.envelopes := by
  obtain ⟨k, -, hk⟩ := Option.bind_eq_some_iff.mp h
  exact List.mem_of_getElem? hk

theorem get_eq_ok_iff {name : String} : lib.get name = .ok e ↔ lib.find? name = some e := by
  unfold get
  cases lib.find? name <;> simp

/-- Every envelope is found by its name. -/
theorem Indexed.get_name (h : lib.Indexed) (he : e ∈ lib.envelopes) : lib.get e.name = .ok e := by
  obtain ⟨k, hk⟩ := List.mem_iff_getElem?.mp he
  exact get_eq_ok_iff.mpr (Option.bind_eq_some_iff.mpr ⟨k, (h e.name k).mpr ⟨e, hk, rfl⟩, hk⟩)

theorem checkLength_eq_ok_iff {name : String} :
    lib.checkLength name n = .ok () ↔ 0 < n ∧ lib.samplesPerClock ∣ n := by
  unfold checkLength
  rw [Nat.dvd_iff_mod_eq_zero]
  by_cases hn : n = 0
  · simp [hn]
  · by_cases hmod : n % lib.samplesPerClock = 0
    · simp [hn, hmod, Nat.pos_of_ne_zero hn]
    · simp [hn, hmod]

theorem checkPeak_eq_ok_iff :
    lib.checkPeak r.name (r.idata.getD [] ++ r.qdata.getD []) = .ok () ↔ ¬ r.peak > ofInt lib.fullScale := by
  have hsamples : r.idata.getD [] ++ r.qdata.getD [] = r.components.flatten := by
    unfold EnvelopeRequest.components
    cases r.idata <;> cases r.qdata <;> simp
  unfold checkPeak EnvelopeRequest.peak
  rw [hsamples]
  by_cases h : r.components.flatten.foldl raisePeak 0.0 > ofInt lib.fullScale <;> simp [h]

/-- There is nothing wrong with the samples of a request for an envelope of `n` samples:
the components that are given agree in their length, which is a whole number of clocks, and
the samples are neither too large nor beyond 16 bits. -/
structure Accepts (lib : EnvelopeLibrary) (r : EnvelopeRequest) (n : ℕ) : Prop where
  given : r.components ≠ []
  lengths : ∀ xs ∈ r.components, xs.length = n
  pos : 0 < n
  clocks : lib.samplesPerClock ∣ n
  peak : ¬ r.peak > ofInt lib.fullScale
  rounds : ∀ xs ∈ r.components, ∀ x ∈ xs, ∃ s, roundIn? (-0x8000) 0x7FFF x = some s

/-- The library has no reason to refuse a request for an envelope of `n` samples: the name
is new, and there is nothing wrong with the samples. -/
structure Admits (lib : EnvelopeLibrary) (r : EnvelopeRequest) (n : ℕ) : Prop extends lib.Accepts r n where
  fresh : ∀ e ∈ lib.envelopes, e.name ≠ r.name

/-- A request is met by an envelope of `n` samples at the end of the library. -/
structure Adds (lib : EnvelopeLibrary) (r : EnvelopeRequest) (n : ℕ) (e : Envelope) (lib' : EnvelopeLibrary) :
    Prop where
  unnamed : lib.index.lookup r.name = none
  accepts : lib.Accepts r n
  name : e.name = r.name
  addr : e.addr = lib.nextAddr
  isamples : Sampled n r.idata e.idata
  qsamples : Sampled n r.qdata e.qdata
  library : lib' = { lib with
    nextAddr := lib.nextAddr + n
    envelopes := lib.envelopes ++ [e]
    index := (e.name, lib.envelopes.length) :: lib.index }

theorem Adds.length_idata (h : lib.Adds r n e lib') : e.idata.length = n :=
  h.isamples.length_eq (EnvelopeRequest.forall_mem_components.mp h.accepts.lengths).1

theorem Adds.length_qdata (h : lib.Adds r n e lib') : e.qdata.length = n :=
  h.qsamples.length_eq (EnvelopeRequest.forall_mem_components.mp h.accepts.lengths).2

/-- What adding an envelope does, if it succeeds. -/
theorem add_eq_ok_iff : lib.add r.name r.idata r.qdata = .ok (e, lib') ↔ ∃ n, lib.Adds r n e lib' := by
  unfold add
  constructor
  · intro h
    cases hname : lib.index.lookup r.name with
    | some k =>
      rw [hname] at h
      cases h
    | none =>
      rw [hname] at h
      obtain ⟨n, hn, h⟩ := bind_eq_ok_iff.mp h
      obtain ⟨_, hlength, h⟩ := bind_eq_ok_iff.mp h
      obtain ⟨_, hpeak, h⟩ := bind_eq_ok_iff.mp h
      obtain ⟨isamples, hi, h⟩ := bind_eq_ok_iff.mp h
      obtain ⟨qsamples, hq, h⟩ := bind_eq_ok_iff.mp h
      cases h
      obtain ⟨hgiven, hlengths⟩ := EnvelopeRequest.commonLength_eq_ok_iff.mp hn
      obtain ⟨hpos, hclocks⟩ := checkLength_eq_ok_iff.mp hlength
      rw [toSamples_eq_ok_iff] at hi hq
      have hrounds := EnvelopeRequest.forall_mem_components.mpr
        ⟨exists_sampled_iff.mp ⟨isamples, hi⟩, exists_sampled_iff.mp ⟨qsamples, hq⟩⟩
      exact ⟨n, hname, ⟨hgiven, hlengths, hpos, hclocks, checkPeak_eq_ok_iff.mp hpeak, hrounds⟩, rfl, rfl, hi, hq, rfl⟩
  · rintro ⟨n, hunnamed, ⟨hgiven, hlengths, hpos, hclocks, hpeak, -⟩, hname, haddr, hi, hq, rfl⟩
    rw [hunnamed]
    refine bind_eq_ok_iff.mpr ⟨n, EnvelopeRequest.commonLength_eq_ok_iff.mpr ⟨hgiven, hlengths⟩, ?_⟩
    refine bind_eq_ok_iff.mpr ⟨(), checkLength_eq_ok_iff.mpr ⟨hpos, hclocks⟩, ?_⟩
    refine bind_eq_ok_iff.mpr ⟨(), checkPeak_eq_ok_iff.mpr hpeak, ?_⟩
    refine bind_eq_ok_iff.mpr ⟨e.idata, toSamples_eq_ok_iff.mpr hi, ?_⟩
    refine bind_eq_ok_iff.mpr ⟨e.qdata, toSamples_eq_ok_iff.mpr hq, ?_⟩
    rw [← hname, ← haddr]
    rfl

/-- A request is met exactly if there is no reason to refuse it. -/
theorem Indexed.exists_add_iff (h : lib.Indexed) :
    (∃ e lib', lib.add r.name r.idata r.qdata = .ok (e, lib')) ↔ ∃ n, lib.Admits r n := by
  simp only [add_eq_ok_iff]
  constructor
  · rintro ⟨e, lib', n, hadds⟩
    exact ⟨n, hadds.accepts, h.lookup_eq_none_iff.mp hadds.unnamed⟩
  · rintro ⟨n, haccepts, hfresh⟩
    obtain ⟨hi, hq⟩ := EnvelopeRequest.forall_mem_components.mp haccepts.rounds
    obtain ⟨isamples, hi⟩ := exists_sampled_iff.mpr hi
    obtain ⟨qsamples, hq⟩ := exists_sampled_iff.mpr hq
    exact ⟨⟨r.name, isamples, qsamples, lib.nextAddr⟩, _, n, h.lookup_eq_none_iff.mpr hfresh, haccepts, rfl, rfl, hi, hq,
      rfl⟩

theorem Indexed.adds (hlib : lib.Indexed) (h : lib.Adds r n e lib') : lib'.Indexed := by
  rw [h.library]
  exact Indexes.concat hlib (h.name ▸ h.unnamed)

/-- What was found under a name is found under it when there is one more. -/
theorem Adds.find?_eq_some (h : lib.Adds r n e lib') {name : String} {e' : Envelope} (he' : lib.find? name = some e') :
    lib'.find? name = some e' := by
  obtain ⟨k, hk, hget⟩ := Option.bind_eq_some_iff.mp he'
  have hne : name ≠ e.name := by
    rintro rfl
    rw [h.name, h.unnamed] at hk
    cases hk
  rw [h.library]
  refine Option.bind_eq_some_iff.mpr ⟨k, ?_, ?_⟩
  · rw [List.lookup_cons, beq_eq_false_iff_ne.mpr hne]
    exact hk
  · rw [List.getElem?_append_left (List.getElem?_eq_some_iff.mp hget).1, hget]

/-! ### Addresses -/

/-- The samples of envelopes, taken together. -/
def sampleCount (es : List Envelope) : ℕ := (es.map Envelope.length).sum

theorem sampleCount_append (es es' : List Envelope) : sampleCount (es ++ es') = sampleCount es + sampleCount es' := by
  simp [sampleCount]

theorem sampleCount_singleton (e : Envelope) : sampleCount [e] = e.length := by
  simp [sampleCount]

/-- The envelopes stand one behind the other from address zero on, up to the address of the
next one. Each is found under a name of its own, has as many I as Q samples, and is a whole
number of clocks long, at least one. -/
structure Packed (lib : EnvelopeLibrary) : Prop where
  indexed : lib.Indexed
  pos : ∀ e ∈ lib.envelopes, 0 < e.length
  shape : ∀ e ∈ lib.envelopes, e.qdata.length = e.length
  clocks : ∀ e ∈ lib.envelopes, lib.samplesPerClock ∣ e.length
  addr : ∀ (k : ℕ) (e : Envelope), lib.envelopes[k]? = some e → e.addr = sampleCount (lib.envelopes.take k)
  nextAddr : lib.nextAddr = sampleCount lib.envelopes

theorem packed_ofGen (ch : ℕ) (g : Generator) : (ofGen ch g).Packed where
  indexed := Indexes.nil _
  pos := List.forall_mem_nil _
  shape := List.forall_mem_nil _
  clocks := List.forall_mem_nil _
  addr := by simp [ofGen]
  nextAddr := rfl

/-- A new envelope starts where the last one ends. -/
theorem Packed.adds (hp : lib.Packed) (h : lib.Adds r n e lib') : lib'.Packed := by
  have hlength : e.length = n := h.length_idata
  have hindexed := hp.indexed.adds h
  rw [h.library] at hindexed ⊢
  refine ⟨hindexed, ?_, ?_, ?_, ?_, ?_⟩
  · exact List.forall_mem_append.mpr ⟨hp.pos, List.forall_mem_singleton.mpr (hlength ▸ h.accepts.pos)⟩
  · exact List.forall_mem_append.mpr ⟨hp.shape, List.forall_mem_singleton.mpr (h.length_qdata.trans hlength.symm)⟩
  · exact List.forall_mem_append.mpr ⟨hp.clocks, List.forall_mem_singleton.mpr (hlength ▸ h.accepts.clocks)⟩
  · intro k e' hk
    change (lib.envelopes ++ [e])[k]? = some e' at hk
    show e'.addr = sampleCount ((lib.envelopes ++ [e]).take k)
    -- the envelopes that were there keep their index; only the new one looks at the counter
    rcases Nat.lt_or_ge k lib.envelopes.length with hlt | hge
    · rw [List.getElem?_append_left hlt] at hk
      rw [List.take_append_of_le_length (Nat.le_of_lt hlt), hp.addr k e' hk]
    · have hlt := (List.getElem?_eq_some_iff.mp hk).1
      rw [List.length_append, List.length_singleton] at hlt
      obtain rfl : k = lib.envelopes.length := by omega
      rw [List.getElem?_concat_length] at hk
      rw [List.take_left, ← Option.some.inj hk, h.addr, hp.nextAddr]
  · show lib.nextAddr + n = sampleCount (lib.envelopes ++ [e])
    rw [sampleCount_append, sampleCount_singleton, hp.nextAddr, hlength]

namespace Packed

/-- An envelope starts at the number of samples before it. -/
theorem exists_split (hp : lib.Packed) (he : e ∈ lib.envelopes) :
    ∃ before after, lib.envelopes = before ++ e :: after ∧ e.addr = sampleCount before := by
  obtain ⟨k, hk⟩ := List.mem_iff_getElem?.mp he
  obtain ⟨hlt, hget⟩ := List.getElem?_eq_some_iff.mp hk
  refine ⟨lib.envelopes.take k, lib.envelopes.drop (k + 1), ?_, hp.addr k e hk⟩
  rw [← hget, ← List.drop_eq_getElem_cons hlt, List.take_append_drop]

/-- Every envelope starts at a clock. -/
theorem dvd_addr (hp : lib.Packed) (he : e ∈ lib.envelopes) : lib.samplesPerClock ∣ e.addr := by
  obtain ⟨before, after, hsplit, haddr⟩ := hp.exists_split he
  rw [haddr, sampleCount]
  refine List.dvd_sum fun n hn => ?_
  obtain ⟨e', he', rfl⟩ := List.mem_map.mp hn
  exact hp.clocks e' (hsplit ▸ List.mem_append_left _ he')

theorem addr_add_length_le (hp : lib.Packed) (he : e ∈ lib.envelopes) :
    e.addr + e.length ≤ sampleCount lib.envelopes := by
  obtain ⟨before, after, hsplit, haddr⟩ := hp.exists_split he
  rw [hsplit, List.append_cons, sampleCount_append, sampleCount_append, sampleCount_singleton, haddr]
  exact Nat.le_add_right _ _

end Packed

/-! ### The image -/

theorem getElem?_envelope_image (h : e.qdata.length = e.length) {k : ℕ} (hk : k < e.length) :
    ∃ i q, e.idata[k]? = some i ∧ e.qdata[k]? = some q ∧ e.image[k]? = some (sampleWord i q) := by
  have hi : k < e.idata.length := hk
  have hq : k < e.qdata.length := h ▸ hk
  refine ⟨_, _, List.getElem?_eq_getElem hi, List.getElem?_eq_getElem hq, ?_⟩
  rw [Envelope.image, List.getElem?_zipWith, List.getElem?_eq_getElem hi, List.getElem?_eq_getElem hq]

theorem length_flatMap_image {es : List Envelope} (h : ∀ e ∈ es, e.qdata.length = e.length) :
    (es.flatMap Envelope.image).length = sampleCount es := by
  have hlength : ∀ e ∈ es, e.image.length = e.length := by
    intro e he
    rw [Envelope.image, List.length_zipWith, h e he]
    exact Nat.min_self _
  rw [List.length_flatMap, sampleCount, List.map_congr_left hlength]

namespace Packed

/-- The image has a word for each sample. -/
theorem length_image (hp : lib.Packed) : lib.image.length = sampleCount lib.envelopes :=
  length_flatMap_image hp.shape

/-- The words of an envelope stand in the image from its address on. -/
theorem getElem?_image (hp : lib.Packed) (he : e ∈ lib.envelopes) {k : ℕ} (hk : k < e.length) :
    ∃ i q, e.idata[k]? = some i ∧ e.qdata[k]? = some q ∧ lib.image[e.addr + k]? = some (sampleWord i q) := by
  obtain ⟨before, after, hsplit, haddr⟩ := hp.exists_split he
  obtain ⟨i, q, hi, hq, hword⟩ := getElem?_envelope_image (hp.shape e he) hk
  have hbefore : (before.flatMap Envelope.image).length = e.addr := by
    rw [haddr, length_flatMap_image fun e' he' => hp.shape e' (hsplit ▸ List.mem_append_left _ he')]
  refine ⟨i, q, hi, hq, ?_⟩
  rw [image, hsplit, List.flatMap_append, List.flatMap_cons, List.getElem?_append_right (by omega), hbefore,
    Nat.add_sub_cancel_left, List.getElem?_append_left (List.getElem?_eq_some_iff.mp hword).1, hword]

end Packed

/-! ### Sequences of requests -/

/-- Add an envelope in place, after all checks: the counter is moved on, the name goes to the
index, and then the envelope to the end. -/
def addInPlace (r : EnvelopeRequest) : InPlace Error EnvelopeLibrary Envelope := do
  let lib ← MonadState.get
  if (lib.index.lookup r.name).isSome then throw (.duplicateName .envelope lib.ch r.name)
  let length ← commonLength r.name r.idata r.qdata
  lib.checkLength r.name length
  lib.checkPeak r.name (r.idata.getD [] ++ r.qdata.getD [])
  let isamples ← toSamples r.name length r.idata
  let qsamples ← toSamples r.name length r.qdata
  let e : Envelope := ⟨r.name, isamples, qsamples, lib.nextAddr⟩
  modify fun lib => { lib with nextAddr := lib.nextAddr + length }
  modify fun lib => { lib with index := (r.name, lib.envelopes.length) :: lib.index }
  modify fun lib => { lib with envelopes := lib.envelopes ++ [e] }
  return e

/-- In place or not, adding comes to the same, and if it fails nothing has been written. -/
theorem addInPlace_apply (r : EnvelopeRequest) (lib : EnvelopeLibrary) :
    (addInPlace r).apply lib = leave lib (lib.add r.name r.idata r.qdata) := by
  unfold addInPlace add
  rw [InPlace.apply_get_bind]
  cases lib.index.lookup r.name with
  | some k => rfl
  | none =>
    refine InPlace.apply_check_bind fun length => ?_
    refine InPlace.apply_check_bind fun _ => InPlace.apply_check_bind fun _ => ?_
    exact InPlace.apply_check_bind fun isamples => InPlace.apply_check_bind fun qsamples => rfl

/-- The library after a request; one that is refused leaves it as it is. -/
def request (lib : EnvelopeLibrary) (r : EnvelopeRequest) : EnvelopeLibrary := ((addInPlace r).apply lib).2

/-- The library after any sequence of requests, those that are refused included. -/
def requestAll (lib : EnvelopeLibrary) (rs : List EnvelopeRequest) : EnvelopeLibrary := rs.foldl request lib

theorem request_of_ok (h : lib.add r.name r.idata r.qdata = .ok (e, lib')) : lib.request r = lib' := by
  rw [request, addInPlace_apply, h, leave]

theorem request_of_error {err : Error} (h : lib.add r.name r.idata r.qdata = .error err) : lib.request r = lib := by
  rw [request, addInPlace_apply, h, leave]

/-- A request keeps the library packed, and leaves the number of samples in a clock alone. -/
theorem request_keeps (hp : lib.Packed) (r : EnvelopeRequest) :
    (lib.request r).Packed ∧ (lib.request r).samplesPerClock = lib.samplesPerClock := by
  cases h : lib.add r.name r.idata r.qdata with
  | error err =>
    rw [request_of_error h]
    exact ⟨hp, rfl⟩
  | ok res =>
    obtain ⟨n, hadds⟩ := add_eq_ok_iff.mp h
    rw [request_of_ok h]
    exact ⟨hp.adds hadds, by rw [hadds.library]⟩

theorem requestAll_keeps (hp : lib.Packed) (rs : List EnvelopeRequest) :
    (lib.requestAll rs).Packed ∧ (lib.requestAll rs).samplesPerClock = lib.samplesPerClock := by
  induction rs generalizing lib with
  | nil => exact ⟨hp, rfl⟩
  | cons r rs ih =>
    obtain ⟨hpacked, hclock⟩ := request_keeps hp r
    obtain ⟨hpacked', hclock'⟩ := ih hpacked
    exact ⟨hpacked', hclock'.trans hclock⟩

end EnvelopeLibrary

/-! ### Programs -/

namespace Build

variable {p : Program} {ch : ℕ} {lib lib' : EnvelopeLibrary} {r : EnvelopeRequest} {e : Envelope} {err : Error}

theorem addEnvelope_of_error (hlib : p.library ch = .ok lib)
    (h : lib.add r.name r.idata r.qdata = .error err) :
    (addEnvelope ch r.name r.idata r.qdata).apply p = (.error err, p) := by
  unfold addEnvelope
  rw [apply_get_bind, apply_lift_bind, hlib]
  dsimp only
  rw [apply_lift_bind, h]

theorem addEnvelope_of_ok (hlib : p.library ch = .ok lib)
    (h : lib.add r.name r.idata r.qdata = .ok (e, lib')) :
    (addEnvelope ch r.name r.idata r.qdata).apply p =
      (.ok (), { p with envelopes := p.envelopes.set ch lib' }) := by
  unfold addEnvelope
  rw [apply_get_bind, apply_lift_bind, hlib]
  dsimp only
  rw [apply_lift_bind, h]
  dsimp only
  rw [apply_set]

end Build

open EnvelopeLibrary in
/-- **Envelopes are where the library says**: after any sequence of requests to an empty
library, whether they are met or not, no two envelopes share a name, each is found by its
name, has as many I as Q samples, is a whole number of clocks long, at least one, and
starts at a clock, behind all that were added before it. The image has a word for each
sample: the `k`-th word from the address of an envelope on has the `k`-th I sample in its
low half and the `k`-th Q sample in its high half. A request is met exactly if there is no
reason to refuse it. Then its samples are added at the end of the image, and nothing else
changes; otherwise the library and the program that asked are left as they were. -/
theorem envelope_memory_agrees {ch : ℕ} {g : Generator} {rs : List EnvelopeRequest} {lib : EnvelopeLibrary}
    (hlib : (ofGen ch g).requestAll rs = lib) :
    (lib.envelopes.map (·.name)).Nodup ∧ (∀ e ∈ lib.envelopes, lib.get e.name = .ok e) ∧
    (∀ (k : ℕ) (e : Envelope), lib.envelopes[k]? = some e →
      0 < e.idata.length ∧ e.qdata.length = e.idata.length ∧ g.samplesPerClock ∣ e.length ∧
      g.samplesPerClock ∣ e.addr ∧ e.addr = sampleCount (lib.envelopes.take k)) ∧
    lib.image.length = sampleCount lib.envelopes ∧ lib.nextAddr = lib.image.length ∧
    (∀ e ∈ lib.envelopes, ∀ k < e.length, ∃ w i q,
      lib.image[e.addr + k]? = some w ∧ e.idata[k]? = some i ∧ e.qdata[k]? = some q ∧
      w.toUInt16.toInt16 = i ∧ (w >>> 16).toUInt16.toInt16 = q) ∧
    ∀ r : EnvelopeRequest,
      ((∃ e lib', lib.add r.name r.idata r.qdata = .ok (e, lib')) ↔ ∃ n, lib.Admits r n) ∧
      (∀ e lib', lib.add r.name r.idata r.qdata = .ok (e, lib') →
        e.name = r.name ∧ Sampled e.length r.idata e.idata ∧ Sampled e.length r.qdata e.qdata ∧
        lib.request r = lib' ∧ lib'.envelopes = lib.envelopes ++ [e] ∧ lib'.image = lib.image ++ e.image ∧
        ∀ (p : Program) (c : ℕ), p.library c = .ok lib → (Build.addEnvelope c r.name r.idata r.qdata).apply p =
          (.ok (), { p with envelopes := p.envelopes.set c lib' })) ∧
      ∀ err, lib.add r.name r.idata r.qdata = .error err →
        lib.request r = lib ∧ ∀ (p : Program) (c : ℕ), p.library c = .ok lib →
          (Build.addEnvelope c r.name r.idata r.qdata).apply p = (.error err, p) := by
  obtain ⟨hp, hclock⟩ := requestAll_keeps (packed_ofGen ch g) rs
  rw [hlib] at hp hclock
  have hclock : lib.samplesPerClock = g.samplesPerClock := hclock
  refine ⟨hp.indexed.nodup, fun e => hp.indexed.get_name, ?_, hp.length_image, ?_, ?_, ?_⟩
  · intro k e hk
    have he : e ∈ lib.envelopes := List.mem_of_getElem? hk
    exact ⟨hp.pos e he, hp.shape e he, hclock ▸ hp.clocks e he, hclock ▸ hp.dvd_addr he, hp.addr k e hk⟩
  · rw [hp.length_image, hp.nextAddr]
  · intro e he k hk
    obtain ⟨i, q, hi, hq, hword⟩ := hp.getElem?_image he hk
    exact ⟨_, i, q, hword, hi, hq, low_sampleWord i q, high_sampleWord i q⟩
  · intro r
    refine ⟨hp.indexed.exists_add_iff, ?_, ?_⟩
    · intro e lib' h
      obtain ⟨n, hadds⟩ := add_eq_ok_iff.mp h
      obtain rfl : e.length = n := hadds.length_idata
      refine ⟨hadds.name, hadds.isamples, hadds.qsamples, request_of_ok h, ?_, ?_, ?_⟩
      · rw [hadds.library]
      · rw [hadds.library, image, List.flatMap_append, List.flatMap_singleton, image]
      · exact fun p c hc => Build.addEnvelope_of_ok hc h
    · exact fun err h => ⟨request_of_error h, fun p c hc => Build.addEnvelope_of_error hc h⟩

/-- Two requests that are met, and between them one for each reason to refuse one: a name
that is taken, no samples, components of two lengths, half a clock, a sample that is too
large, and one that is no number among the Q samples. -/
def mixedRequests : List EnvelopeRequest :=
  [⟨"ramp", some [-1.0, 2.0], some [3.0, -4.5]⟩, ⟨"ramp", some [1.0, 1.0], none⟩, ⟨"dip", none, none⟩,
    ⟨"dip", some [1.0, 1.0], some [1.0]⟩, ⟨"dip", some [1.0], none⟩, ⟨"dip", some [40000.0, 1.0], none⟩,
    ⟨"dip", some [1.0, 1.0], some [1.0, 0.0 / 0.0]⟩, ⟨"dip", none, some [-0.5, -7.0]⟩]

/-- The requests that are refused leave no trace, and the sign of a sample does not reach the
other half of its word. -/
theorem envelope_memory_agrees_mixed_requests :
    ∃ lib, (EnvelopeLibrary.ofGen 0 { samplesPerClock := 2 }).requestAll mixedRequests = lib ∧
      lib.envelopes = [⟨"ramp", [-1, 2], [3, -5], 0⟩, ⟨"dip", [0, 0], [-1, -7], 2⟩] ∧
      lib.image = [0x0003FFFF, 0xFFFB0002, 0xFFFF0000, 0xFFF90000] ∧ lib.nextAddr = lib.image.length ∧
      ∀ e ∈ lib.envelopes, ∀ k < e.length, ∃ w i q,
        lib.image[e.addr + k]? = some w ∧ e.idata[k]? = some i ∧ e.qdata[k]? = some q ∧
        w.toUInt16.toInt16 = i ∧ (w >>> 16).toUInt16.toInt16 = q := by
  have hlib : (EnvelopeLibrary.ofGen 0 { samplesPerClock := 2 }).requestAll mixedRequests = _ := rfl
  obtain ⟨-, -, -, -, hnext, hwords, -⟩ := envelope_memory_agrees hlib
  exact ⟨_, rfl, by decide +kernel, by decide +kernel, hnext, hwords⟩

end PulseAsm
