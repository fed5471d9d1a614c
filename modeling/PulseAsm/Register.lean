import PulseAsm.Error

/-!
# Registers

Registers are named places on pages of at most 32. The register file hands them
out: at a given address, or at the lowest one that is free. A page keeps a bit
per address, so that an address is taken exactly if a register stands there.

A generator plays from six registers of its own; two generators share a page.
Page 0 also holds the two registers of the trigger unit.
-/

namespace PulseAsm

/-- What a register is used for. -/
inductive RegKind where
  /-- A frequency. -/
  | freq
  /-- A time. -/
  | time
  /-- A phase. -/
  | phase
  /-- An address. -/
  | addr
  /-- A gain. -/
  | gain
  /-- Anything else. -/
  | generic
  deriving DecidableEq

namespace RegKind

/-- Every use. -/
def all : List RegKind := [freq, time, phase, addr, gain, generic]

/-- The name of a use. -/
def name : RegKind → String
  | freq => "freq"
  | time => "time"
  | phase => "phase"
  | addr => "addr"
  | gain => "gain"
  | generic => "generic"

/-- The use with a name. -/
def ofName? (s : String) : Option RegKind := all.find? (·.name = s)

end RegKind

/-- A register that has been handed out. -/
structure Register where
  /-- The page. -/
  page : Nat
  /-- The address on the page. -/
  addr : Nat
  /-- What it is used for. -/
  kind : RegKind
  /-- The value it starts with. -/
  init : Option Int
  /-- The name. -/
  name : String
  /-- The generator that it belongs to. -/
  owner : Option Nat
  deriving DecidableEq

/-- A wish for a register. -/
structure RegRequest where
  /-- The page. -/
  page : Nat
  /-- The address on the page; the lowest free one if there is no wish. -/
  addr : Option Nat := none
  /-- The name; one made from page and address if there is no wish. -/
  name : Option String := none
  /-- What it is used for. -/
  kind : RegKind := .generic
  /-- The generator that it belongs to. -/
  owner : Option Nat := none
  /-- The value it starts with. -/
  init : Option Int := none

/-- The registers of a processor: which addresses are taken, and what stands there. -/
structure RegisterFile where
  /-- The addresses of a page. -/
  perPage : Nat
  /-- For each page, the bits of the addresses that are taken. -/
  used : List (BitVec 32)
  /-- The registers in the order in which they were handed out. -/
  registers : List Register

namespace RegisterFile

/-- A file without registers; a page has at most 32 addresses. -/
def empty (pages perPage : Nat) : RegisterFile :=
  ⟨min perPage 32, List.replicate pages 0, []⟩

/-- The register with a name. -/
def get? (f : RegisterFile) (name : String) : Option Register :=
  f.registers.find? (·.name = name)

/-- Whether an address of a page is taken. -/
def isUsed (f : RegisterFile) (page addr : Nat) : Bool :=
  match f.used[page]? with
  | some bits => bits.getLsbD addr
  | none => false

/-- The registers in the order of their names. -/
def byName (f : RegisterFile) : List Register :=
  f.registers.mergeSort fun a b => decide (a.name ≤ b.name)

/-- The address that a request gets on a page whose taken addresses are `bits`. -/
def chooseAddr (f : RegisterFile) (r : RegRequest) (bits : BitVec 32) : Except Error Nat :=
  match r.addr with
  | some a =>
    if f.perPage ≤ a then .error (.outOfRange "register address" a s!"[0, {f.perPage})")
    else if bits.getLsbD a then .error (.registerTaken r.page a)
    else .ok a
  | none =>
    match (List.range f.perPage).find? fun a => !bits.getLsbD a with
    | some a => .ok a
    | none => .error (.outOfRange s!"page {r.page} registers" f.perPage "all registers in use")

/-- The name that a request gets at an address. -/
def chooseName (r : RegRequest) (addr : Nat) : String :=
  match r.name with
  | some name => name
  | none => s!"reg_p{r.page}_{addr}"

/-- Hand out a register. A request that cannot be met leaves no trace. -/
def allocate (f : RegisterFile) (r : RegRequest) : Except Error (Register × RegisterFile) :=
  match f.used[r.page]? with
  | none => .error (.outOfRange "register page" r.page s!"[0, {f.used.length})")
  | some bits =>
    match f.chooseAddr r bits with
    | .error e => .error e
    | .ok addr =>
      let name := chooseName r addr
      match f.get? name with
      | some _ => .error (.duplicateRegister name)
      | none =>
        let reg : Register := ⟨r.page, addr, r.kind, r.init, name, r.owner⟩
        .ok (reg, { f with
          used := f.used.set r.page (bits ||| 1#32 <<< addr)
          registers := f.registers ++ [reg] })

end RegisterFile

/-- The registers that a generator plays from: a run of six addresses on a page. -/
structure PulseRegs where
  /-- The page. -/
  page : Nat
  /-- The first address. -/
  base : Nat
  deriving DecidableEq

namespace PulseRegs

/-- The registers of a generator: two generators share a page, and the odd one has
the upper run. -/
def ofGen (ch : Nat) : PulseRegs := ⟨ch / 2 % 256, if ch % 2 = 0 then 16 else 23⟩

/-- The address of the register that holds the output time. -/
def time (r : PulseRegs) : Nat := r.base + 5

/-- The registers with their names and uses. -/
def named (r : PulseRegs) : List (String × Nat × RegKind) :=
  [("freq", r.base, .freq), ("phase", r.base + 1, .phase), ("addr", r.base + 2, .addr),
   ("gain", r.base + 3, .gain), ("mode", r.base + 4, .generic), ("t", r.time, .time)]

end PulseRegs

/-- The page of the trigger registers. -/
def triggerPage : Nat := 0

/-- The register that holds the time of a trigger. -/
def triggerTimeReg : Nat := 30

/-- The register that holds the trigger outputs. -/
def triggerOutReg : Nat := 31

end PulseAsm
