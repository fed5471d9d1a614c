import PulseAsm.Binary64.Basic
import PulseAsm.Board.Basic

/-!
# Envelopes

An envelope is a list of I/Q samples in the table of a generator. Envelopes are
appended; each starts where the one before it ends, and all lengths are whole
clocks, so every address is one too. The memory image has a word per sample.

Two shapes are made here: a Gaussian and a triangle, both scaled so that the
largest sample is a given value.
-/

namespace PulseAsm

open Binary64

/-- An envelope in the table of a generator. -/
structure Envelope where
  /-- The name. -/
  name : String
  /-- The I samples. -/
  idata : List Int16
  /-- The Q samples. -/
  qdata : List Int16
  /-- The place in the table, in samples. -/
  addr : Nat
  deriving DecidableEq

/-- The number of samples. -/
def Envelope.length (e : Envelope) : Nat := e.idata.length

/-- A sample pair as a memory word: I in the low half and Q in the high half. -/
def sampleWord (i q : Int16) : UInt32 :=
  UInt32.ofNat (i.toUInt16.toNat + (q.toUInt16.toNat <<< 16))

/-- The memory words of an envelope. -/
def Envelope.image (e : Envelope) : List UInt32 := List.zipWith sampleWord e.idata e.qdata

/-- The larger of a peak and the magnitude of a sample; a NaN counts as nothing. -/
def raisePeak (peak x : Float) : Float := if x.abs > peak then x.abs else peak

/-- A sample rounded to 16 bits, a half away from zero. -/
def toSample (name : String) (x : Float) : Except Error Int16 :=
  match roundIn? (-0x8000) 0x7FFF x with
  | some n => .ok (Int16.ofInt n)
  | none => .error (.outOfRange s!"envelope {name} sample" (toInt64 x) "16-bit sample")

/-- A component of an envelope; one that is not given is all zeros. -/
def toSamples (name : String) (length : Nat) : Option (List Float) → Except Error (List Int16)
  | some xs => xs.mapM (toSample name)
  | none => .ok (List.replicate length 0)

/-- The envelope table of a generator. -/
structure EnvelopeLibrary where
  /-- The generator. -/
  ch : Nat
  /-- The samples that are played in one clock. -/
  samplesPerClock : Nat
  /-- The largest sample. -/
  fullScale : Int
  /-- Where the next envelope starts. -/
  nextAddr : Nat := 0
  /-- The envelopes in the order in which they were added. -/
  envelopes : List Envelope := []
  /-- The place of each name among the envelopes, the last name first. -/
  index : List (String × Nat) := []

namespace EnvelopeLibrary

/-- The table of a generator before anything is added. -/
def ofGen (ch : Nat) (g : Generator) : EnvelopeLibrary :=
  { ch, samplesPerClock := g.samplesPerClock, fullScale := g.fullScale }

/-- The envelope with a name. -/
def find? (lib : EnvelopeLibrary) (name : String) : Option Envelope :=
  (lib.index.lookup name).bind fun k => lib.envelopes[k]?

/-- The envelope with a name. -/
def get (lib : EnvelopeLibrary) (name : String) : Except Error Envelope :=
  match lib.find? name with
  | some e => .ok e
  | none => .error (.unknownName .envelope lib.ch name)

/-- The common length of the components that are given. -/
def commonLength (name : String) : Option (List Float) → Option (List Float) → Except Error Nat
  | none, none => .error (.emptyEnvelope name)
  | some i, some q =>
    if i.length = q.length then .ok i.length
    else .error (.envelopeShape name i.length q.length)
  | some d, none => .ok d.length
  | none, some d => .ok d.length

/-- Check the length of an envelope. -/
def checkLength (lib : EnvelopeLibrary) (name : String) (length : Nat) : Except Error Unit :=
  if length = 0 then .error (.emptyEnvelope name)
  else if length % lib.samplesPerClock ≠ 0 then
    .error (.outOfRange s!"envelope {name} length" length
      s!"multiple of {lib.samplesPerClock} samples")
  else .ok ()

/-- Check that no sample exceeds the largest one. -/
def checkPeak (lib : EnvelopeLibrary) (name : String) (samples : List Float) : Except Error Unit :=
  let peak := samples.foldl raisePeak 0.0
  if peak > ofInt lib.fullScale then
    .error (.outOfRange s!"envelope {name} amplitude" (saturateUp int64Min int64Max peak)
      s!"|sample| <= {lib.fullScale}")
  else .ok ()

/-- Append an envelope. Nothing is stored unless every check passes. -/
def add (lib : EnvelopeLibrary) (name : String) (idata qdata : Option (List Float)) :
    Except Error (Envelope × EnvelopeLibrary) := do
  if (lib.index.lookup name).isSome then throw (.duplicateName .envelope lib.ch name)
  let length ← commonLength name idata qdata
  lib.checkLength name length
  lib.checkPeak name (idata.getD [] ++ qdata.getD [])
  let isamples ← toSamples name length idata
  let qsamples ← toSamples name length qdata
  let e : Envelope := ⟨name, isamples, qsamples, lib.nextAddr⟩
  return (e, { lib with
    nextAddr := lib.nextAddr + length
    envelopes := lib.envelopes ++ [e]
    index := (name, lib.envelopes.length) :: lib.index })

/-- The memory image of the table. -/
def image (lib : EnvelopeLibrary) : List UInt32 := lib.envelopes.flatMap Envelope.image

end EnvelopeLibrary

/-! ### Shapes -/

namespace Shape

/-- Samples scaled so that the largest is `top`; a shape without a positive sample
stays as it is. -/
def normalize (ys : List Float) (top : Float) : List Float :=
  let peak := ys.foldl (fun peak y => if y > peak then y else peak) 0.0
  if peak == 0.0 then ys else ys.map fun y => y / peak * top

/-- A Gaussian around `mu`. -/
def gauss (mu sigma : Float) (length : Nat) (top : Float) : List Float :=
  let ys := (List.range length).map fun (x : Nat) =>
    let d := ofInt x - mu
    Float.exp (-(d * d) / (sigma * sigma))
  normalize ys top

/-- A ramp up and down again. -/
def triangle (length : Nat) (top : Float) : List Float :=
  let up := (List.range ((length + 1) / 2)).map fun (x : Nat) => ofInt x
  normalize ((up ++ up.reverse).take length) top

end Shape

end PulseAsm
