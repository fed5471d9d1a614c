import PulseAsm.Error

/-!
# The timeline

Each generator and each readout has a timestamp: the earliest time at which its
next output is in order. Scheduling an output reserves its duration. An output
asked for at a time before the timestamp is played where asked, and the channel
moves on from its timestamp.

Times have 64 bits, and every sum of times is checked. One that does not fit is an
error, and the channel stays where it is: no timestamp ever wraps around.
-/

namespace PulseAsm

/-- A channel with a timestamp. -/
inductive Channel where
  /-- A generator. -/
  | gen (index : Nat)
  /-- A readout. -/
  | readout (index : Nat)
  deriving DecidableEq

/-- When an output should happen. -/
inductive Time where
  /-- At the timestamp of the channel. -/
  | auto
  /-- At a given time. -/
  | fixed (t : Nat)
  deriving DecidableEq

/-- The first number that is no time, since times have 64 bits. -/
def timeLimit : Nat := 0x10000000000000000

/-- A time moved on by a number of cycles, if there is such a time. -/
def addTime (t cycles : Nat) : Except Error Nat :=
  if t + cycles < timeLimit then .ok (t + cycles) else .error .timeOverflow

/-- The timestamps of all channels. -/
structure Timeline where
  /-- The timestamps of the generators. -/
  gens : List UInt64
  /-- The timestamps of the readouts. -/
  readouts : List UInt64
  deriving DecidableEq

namespace Timeline

/-- All channels at time zero. -/
def zero (gens readouts : Nat) : Timeline :=
  ⟨List.replicate gens 0, List.replicate readouts 0⟩

/-- The timestamp of a channel, if the channel exists. -/
def get? (tl : Timeline) : Channel → Option Nat
  | .gen i => (tl.gens[i]?).map UInt64.toNat
  | .readout i => (tl.readouts[i]?).map UInt64.toNat

/-- The error of a channel that does not exist. -/
def missing : Channel → Error
  | .gen i => .noSuchChannel .generator i
  | .readout i => .noSuchChannel .readout i

/-- The timestamp of a channel. -/
def get (tl : Timeline) (ch : Channel) : Except Error Nat :=
  match tl.get? ch with
  | some t => .ok t
  | none => .error (missing ch)

/-- The timeline with another timestamp for a channel. -/
def set (tl : Timeline) (ch : Channel) (t : UInt64) : Timeline :=
  match ch with
  | .gen i => { tl with gens := tl.gens.set i t }
  | .readout i => { tl with readouts := tl.readouts.set i t }

/-- The latest of a list of times; zero if it is empty. -/
def latest (ts : List Nat) : Nat := ts.foldl max 0

/-- The latest timestamp among the chosen kinds of channels. -/
def horizon (tl : Timeline) (gens readouts : Bool) : Nat :=
  latest (((if gens then tl.gens else []) ++ (if readouts then tl.readouts else [])).map UInt64.toNat)

/-- The timeline with a channel that goes on at `t` for a duration. -/
def advance (tl : Timeline) (ch : Channel) (t duration : Nat) : Except Error Timeline := do
  let next ← addTime t duration
  return tl.set ch (.ofNat next)

/-- Reserve a duration on a channel. The result is the time of the output. A time
before the timestamp is a conflict: the output is played there all the same, and
the channel is advanced from its timestamp. -/
def schedule (tl : Timeline) (ch : Channel) (time : Time) (duration : Nat) :
    Except Error (Nat × Timeline) :=
  match tl.get? ch with
  | none => .error (missing ch)
  | some ts =>
    match time with
    | .auto => (tl.advance ch ts duration).map (ts, ·)
    | .fixed t =>
      if t < ts then (tl.advance ch ts duration).map (t, ·)
      else (tl.advance ch t duration).map (t, ·)

/-- Bring channels to the latest of their timestamps. Every timestamp is read
before any is changed, so a missing channel leaves the timeline as it was. -/
def align (tl : Timeline) (chs : List Channel) : Except Error Timeline := do
  let ts ← chs.mapM tl.get
  return chs.foldl (fun tl ch => tl.set ch (.ofNat (latest ts))) tl

/-- All channels back at time zero. -/
def reset (tl : Timeline) : Timeline :=
  ⟨tl.gens.map fun _ => 0, tl.readouts.map fun _ => 0⟩

end Timeline

end PulseAsm
