import PulseAsm.Binary
import PulseAsm.Wave

/-!
# Handing over to the hardware

Program memory is a window of 32-bit registers, two per word, the low half
first. Wave rows and envelopes go through a stream that reports how many bytes it
has moved; any other number than asked for is an error.

The register window and the stream are given by what they do, so that a model of
either can take the place of the hardware.
-/

namespace PulseAsm.Device

/-- Why a hand-over failed. -/
inductive Failure where
  /-- A fault of the program. -/
  | error (e : Error)
  /-- A fault of the hardware, and what was being done. -/
  | fault (context cause : String)

/-- The wording of a failure. -/
def Failure.message : Failure → String
  | .error e => e.message
  | .fault context cause => s!"{context}: {cause}"

/-! ### Program memory -/

/-- A register window: the contents of the offsets that have been written, in
increasing order. Other offsets read as zero. -/
abbrev Registers := List (Nat × UInt32)

namespace Registers

/-- The window with a value at an offset. -/
def write (offset : Nat) (v : UInt32) : Registers → Registers
  | [] => [(offset, v)]
  | (o, u) :: rest =>
    if offset < o then (offset, v) :: (o, u) :: rest
    else if offset = o then (o, v) :: rest
    else (o, u) :: write offset v rest

/-- The value at an offset. -/
def read (regs : Registers) (offset : Nat) : UInt32 := (regs.lookup offset).getD 0

end Registers

/-- A way of writing to a register window of state `σ`: the new state, or the text
of a fault, which changes nothing. -/
abbrev Writer (σ : Type) := σ → Nat → UInt32 → Except String σ

/-- A window that takes every write. -/
def memory : Writer Registers := fun regs offset v => .ok (regs.write offset v)

/-- The low half of a word. -/
def lowHalf (w : Word) : UInt32 := UInt32.ofNat (w.toNat % (1 <<< 32))

/-- The high half of a word. -/
def highHalf (w : Word) : UInt32 := UInt32.ofNat (w.toNat >>> 32)

/-- Write one half of the word of index `i`. -/
def writeHalf (io : Writer σ) (i : Nat) (half : String) (offset : Nat) (v : UInt32) :
    ExceptT Failure (StateM σ) Unit := do
  match io (← get) offset v with
  | .ok s => set s
  | .error cause => throw (.fault s!"writing word {i} ({half})" cause)

/-- Write words from index `i` on. The window has 32-bit offsets. -/
def loadFrom (io : Writer σ) : Nat → List Word → ExceptT Failure (StateM σ) Unit
  | _, [] => return
  | i, w :: ws => do
    unless 8 * i < 1 <<< 32 do
      throw (.fault "program does not fit the register window"
        "out of range integral type conversion attempted")
    writeHalf io i "low" (8 * i) (lowHalf w)
    writeHalf io i "high" (8 * i + 4) (highHalf w)
    loadFrom io (i + 1) ws

/-- Write a program to its memory. The window is kept as it is when a write fails. -/
def loadProgram (io : Writer σ) (words : List Word) (s : σ) : Except Failure Unit × σ :=
  StateT.run (ExceptT.run (loadFrom io 0 words)) s

/-! ### Streams -/

/-- A stream: it takes bytes, and tells how many it has moved or why it failed. -/
abbrev Stream := List UInt8 → Except String Nat

/-- Check what a stream has made of `bytes`. -/
def checkTransfer (what : String) (bytes : List UInt8) : Except String Nat → Except Failure Unit
  | .ok n =>
    if n = bytes.length then .ok () else .error (.error (.transfer what bytes.length n))
  | .error cause => .error (.fault s!"transferring {what}" cause)

/-- What is handed to a stream: a name for messages, and the bytes. -/
structure Payload where
  /-- The name. -/
  what : String
  /-- The bytes. -/
  bytes : List UInt8

/-- Send a payload. -/
def Payload.send (p : Payload) (stream : Stream) : Except Failure Unit :=
  checkTransfer p.what p.bytes (stream p.bytes)

/-- The rows of a wave table as a payload. -/
def wavePayload (rows : List (List UInt8)) : Payload := ⟨"wave table", rows.flatten⟩

/-- An envelope image as a payload. Samples are moved in pairs, so their number
must be even. -/
def envelopePayload (ch : Nat) (image : List UInt32) : Except Error Payload :=
  if image.length % 2 = 0 then
    .ok ⟨s!"g{ch} envelope", image.flatMap fun s => littleEndian 4 s.toNat⟩
  else .error (.outOfRange s!"g{ch} envelope samples" image.length "even transfer length")

end PulseAsm.Device
