import PulseAsm.Error
import PulseAsm.LittleEndian

/-!
# Waves

A wave is one segment of a pulse as the generator plays it. In memory it is a
record of six little-endian fields with a zero byte after the envelope address;
rows of the wave table are 32 bytes, the record padded with zeros. A row's index
in the table is what an instruction refers to.
-/

namespace PulseAsm

/-! ### Output configuration -/

/-- Where the output of a generator comes from. -/
inductive OutputSource where
  /-- The envelope times the carrier. -/
  | product
  /-- The carrier alone. -/
  | dds
  /-- The envelope alone. -/
  | input
  /-- Nothing. -/
  | zero
  deriving DecidableEq

namespace OutputSource

/-- Every source. -/
def all : List OutputSource := [product, dds, input, zero]

/-- The name of a source. -/
def name : OutputSource → String
  | product => "product"
  | dds => "dds"
  | input => "input"
  | zero => "zero"

/-- The source with a name. -/
def ofName? (s : String) : Option OutputSource := all.find? (·.name = s)

/-- The code of a source in the configuration word. -/
def code : OutputSource → Nat
  | product => 0
  | dds => 1
  | input => 2
  | zero => 3

end OutputSource

/-- Whether a wave plays once or repeats. -/
inductive RunMode where
  /-- Once. -/
  | oneshot
  /-- Again and again. -/
  | periodic
  deriving DecidableEq

namespace RunMode

/-- The name of a mode. -/
def name : RunMode → String
  | oneshot => "oneshot"
  | periodic => "periodic"

/-- The mode with a name. -/
def ofName? (s : String) : Option RunMode := [oneshot, periodic].find? (·.name = s)

/-- The bit of a mode in the configuration word. -/
def code : RunMode → Nat
  | oneshot => 0
  | periodic => 4

end RunMode

/-- What a generator holds after a wave. -/
inductive IdleLevel where
  /-- The last sample. -/
  | last
  /-- Zero. -/
  | zero
  deriving DecidableEq

namespace IdleLevel

/-- The name of a level. -/
def name : IdleLevel → String
  | last => "last"
  | zero => "zero"

/-- The level with a name. -/
def ofName? (s : String) : Option IdleLevel := [last, zero].find? (·.name = s)

/-- The bit of a level in the configuration word. -/
def code : IdleLevel → Nat
  | last => 0
  | zero => 8

end IdleLevel

/-- The configuration word. What is left open takes the default of the hardware:
the product, once, zero afterwards, and no phase reset. -/
def outputConfig (source : Option OutputSource) (mode : Option RunMode) (idle : Option IdleLevel)
    (phaseReset : Option Bool) : Nat :=
  (source.getD .product).code + (mode.getD .oneshot).code + (idle.getD .zero).code +
    if phaseReset.getD false then 16 else 0

/-! ### Waves and their rows -/

/-- One segment of a pulse. -/
structure Wave where
  /-- The frequency word. -/
  freq : UInt32
  /-- The phase word. -/
  phase : UInt32
  /-- The address of the envelope, in clocks; 24 bits are stored. -/
  env : UInt32
  /-- The gain. -/
  gain : Int32
  /-- The length in clocks. -/
  length : UInt32
  /-- The configuration word. -/
  conf : UInt16
  deriving DecidableEq

namespace Wave

/-- The envelope addresses that a record can hold. -/
def envLimit : Nat := 0x1000000

/-- The offset of the zero byte in a record. -/
def gapOffset : Nat := 11

/-- The length of a row of the wave table. -/
def rowBytes : Nat := 32

/-- The fields of a wave, one after the other. -/
def rawBytes (w : Wave) : Except Error (List UInt8) :=
  if w.env.toNat < envLimit then
    .ok (littleEndian 4 w.freq.toNat ++ littleEndian 4 w.phase.toNat ++
      littleEndian 3 w.env.toNat ++ littleEndian 4 w.gain.toUInt32.toNat ++
      littleEndian 4 w.length.toNat ++ littleEndian 2 w.conf.toNat)
  else .error (.outOfRange "wave.env" w.env.toNat "24-bit envelope address")

/-- A wave as the wave memory stores it, with a zero byte in the gap. -/
def record (w : Wave) : Except Error (List UInt8) := do
  let raw ← w.rawBytes
  return raw.take gapOffset ++ 0 :: raw.drop gapOffset

/-- A wave as a row of the wave table. -/
def row (w : Wave) : Except Error (List UInt8) := do
  let record ← w.record
  return record ++ List.replicate (rowBytes - record.length) 0

end Wave

/-- The wave table: named waves in the order in which they were added, and beside
them an index from names to rows. -/
structure WaveTable where
  /-- The waves with their names. -/
  entries : List (String × Wave)
  /-- The row of each name, the last name first. -/
  index : List (String × Nat)

namespace WaveTable

/-- A table without waves. -/
def empty : WaveTable := ⟨[], []⟩

/-- The row of the wave with a name. -/
def indexOf? (t : WaveTable) (name : String) : Option Nat := t.index.lookup name

/-- The wave at an index. -/
def get? (t : WaveTable) (index : Nat) : Option Wave := (t.entries[index]?).map (·.2)

/-- Append a wave under a new name. The result is its index. -/
def add (t : WaveTable) (name : String) (w : Wave) : Except Error (Nat × WaveTable) :=
  match t.indexOf? name with
  | some _ => .error (.duplicateName .wave 0 name)
  | none =>
    let row := t.entries.length
    .ok (row, ⟨t.entries ++ [(name, w)], (name, row) :: t.index⟩)

/-- The rows of the table. -/
def rows (t : WaveTable) : Except Error (List (List UInt8)) := t.entries.mapM fun e => e.2.row

end WaveTable

end PulseAsm
