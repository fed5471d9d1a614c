import PulseAsm.Error
import PulseAsm.Instr.Basic
import PulseAsm.Instr.Decoding
import PulseAsm.Instr.Immediate

/-!
# The machine

A model of the processor's registers and control flow. Timed instructions pass
without effect. A program is given decoded, word by word; a word that did not
decode is a fault only when it is reached.

`Machine.step` executes one instruction and `Machine.run` repeats it until the
program halts or a number of steps has been made.
-/

namespace PulseAsm

/-- The registers of a page. -/
abbrev Page := Vector UInt32 32

/-- Facts about the last result that updated the flags. -/
structure Flags where
  /-- It was zero. -/
  zero : Bool := false
  /-- It was negative as a signed number. -/
  negative : Bool := false
  deriving DecidableEq

/-- Why execution stopped short of `end`. -/
inductive Trap where
  /-- There is no word at the program counter. -/
  | outOfBounds (pc : Nat)
  /-- The word at the program counter is no instruction. -/
  | invalid (pc : Nat) (cause : Error)
  /-- An operand is of the wrong kind. -/
  | operand (pc : Nat) (mnemonic : String) (index : Nat)
  /-- There is no such register. -/
  | badRegister (page reg : Int)
  /-- The steps ran out. -/
  | stepLimit (steps : Nat)
  deriving DecidableEq

/-- The wording of a trap. -/
def Trap.message : Trap → String
  | .outOfBounds pc => s!"pc {pc} is outside the program"
  | .invalid pc cause => s!"invalid instruction at {pc}: {cause.message}"
  | .operand pc mnemonic index => s!"malformed operand {index} of {mnemonic} at {pc}"
  | .badRegister page reg => s!"register p{page}:r{reg} does not exist"
  | .stepLimit steps => s!"no `end` within {steps} steps"

/-- The state of the machine. -/
structure Machine where
  /-- The address of the next instruction. It has 32 bits as long as the program has
  fewer than `2^32` words, since jumps go to addresses of 32 bits. -/
  pc : Nat := 0
  /-- The flags. -/
  flags : Flags := {}
  /-- The pages of registers. -/
  pages : Array Page
  /-- Whether `end` has been reached. -/
  halted : Bool := false

/-- What an instruction does. -/
inductive Action where
  /-- Write an immediate. -/
  | loadImm
  /-- Combine a register and an immediate. -/
  | combineImm
  /-- Combine two registers. -/
  | combineReg
  /-- Jump if a comparison of registers holds. -/
  | jumpIf
  /-- Jump if the last flagged result was not zero. -/
  | jumpNonzero
  /-- Count a register down and jump unless it reaches zero. -/
  | countDown
  /-- Halt. -/
  | halt
  /-- Nothing that registers or control flow could show. -/
  | pass
  deriving DecidableEq

/-- What the instruction of a mnemonic does. -/
def Action.ofMnemonic (mnemonic : String) : Action :=
  if mnemonic = "regwi" then .loadImm
  else if mnemonic = "mathi" ∨ mnemonic = "bitwi" then .combineImm
  else if mnemonic = "math" ∨ mnemonic = "bitw" then .combineReg
  else if mnemonic = "condj" then .jumpIf
  else if mnemonic = "jnz" then .jumpNonzero
  else if mnemonic = "loopnz" then .countDown
  else if mnemonic = "end" then .halt
  else .pass

namespace Operator

/-- The result of an arithmetic or bitwise operator. Sums wrap, and shift counts
are taken modulo 32. -/
def eval? (op : Operator) (a b : UInt32) : Option UInt32 :=
  match op with
  | add => some (a + b)
  | sub => some (a - b)
  | mul => some (a * b)
  | and => some (a &&& b)
  | or => some (a ||| b)
  | xor => some (a ^^^ b)
  | not => some (~~~b)
  | shl => some (a <<< b)
  | shr => some (a >>> b)
  | _ => none

/-- The truth of a comparison of signed numbers. -/
def holds? (op : Operator) (a b : UInt32) : Option Bool :=
  let a := a.toInt32
  let b := b.toInt32
  match op with
  | gt => some (b < a)
  | ge => some (b ≤ a)
  | lt => some (a < b)
  | le => some (a ≤ b)
  | eq => some (a = b)
  | ne => some (a ≠ b)
  | _ => none

end Operator

namespace Machine

/-- A machine at its start, all registers zero. -/
def start (pages : Nat) : Machine := { pages := Array.replicate pages (Vector.replicate 32 0) }

/-- The value of a register. -/
def reg? (m : Machine) (page reg : Nat) : Option UInt32 := do
  let p ← m.pages[page]?
  p[reg]?

/-- The machine with another value in a register. -/
def setReg (m : Machine) (page reg : Nat) (v : UInt32) : Machine :=
  { m with pages := m.pages.modify page fun p => p.setIfInBounds reg v }

/-- Execution: a result or a trap, and the machine as it is then. -/
abbrev Exec := ExceptT Trap (StateM Machine)

/-- The number at an operand. -/
def value (pc : Nat) (i : Instr) (index : Nat) : Except Trap Int :=
  match i.operands[index]? with
  | some (.value v) => .ok v
  | _ => .error (.operand pc i.mnemonic index)

/-- The operator at an operand. -/
def operator (pc : Nat) (i : Instr) (index : Nat) : Except Trap Operator :=
  match i.operands[index]? with
  | some (.op o) => .ok o
  | _ => .error (.operand pc i.mnemonic index)

/-- The jump target at an operand. -/
def target (pc : Nat) (i : Instr) (index : Nat) : Except Trap Nat := do
  let v ← value pc i index
  if 0 ≤ v ∧ v < 0x100000000 then return v.toNat else throw (.operand pc i.mnemonic index)

/-- What a partial operator yields, if the operand at `index` fits it. -/
def defined (pc : Nat) (i : Instr) (index : Nat) : Option α → Except Trap α
  | some a => .ok a
  | none => .error (.operand pc i.mnemonic index)

/-- The value of a register by the numbers of an instruction. -/
def regAt? (m : Machine) (page reg : Int) : Option UInt32 :=
  if 0 ≤ page ∧ 0 ≤ reg then m.reg? page.toNat reg.toNat else none

/-- Read a register that an instruction names. -/
def read (page reg : Int) : Exec UInt32 := do
  match (← get).regAt? page reg with
  | some v => return v
  | none => throw (.badRegister page reg)

/-- Write a register that an instruction names, and the flags if asked to. -/
def write (page reg : Int) (v : UInt32) (updateFlags : Bool) : Exec Unit := do
  let _ ← read page reg
  modify fun m =>
    let m := m.setReg page.toNat reg.toNat v
    if updateFlags then { m with flags := ⟨v == 0, v.toInt32 < 0⟩ } else m

/-- An immediate as the machine reads it. -/
def immediate (v : Int) : UInt32 := UInt32.ofInt (signExtend31 v)

/-- Execute an instruction at `pc`. The result is the next program counter. -/
def execute (pc : Nat) (i : Instr) : Exec Nat := do
  match Action.ofMnemonic i.mnemonic with
  | .loadImm =>
    let page ← value pc i 0
    let dst ← value pc i 1
    let imm ← value pc i 2
    write page dst (immediate imm) i.updateFlags
    return pc + 1
  | .combineImm =>
    let page ← value pc i 0
    let src ← value pc i 2
    let a ← read page src
    let op ← operator pc i 3
    let imm ← value pc i 4
    let r ← defined pc i 3 (op.eval? a (immediate imm))
    let dst ← value pc i 1
    write page dst r i.updateFlags
    return pc + 1
  | .combineReg =>
    let page ← value pc i 0
    let src ← value pc i 2
    let a ← read page src
    let src ← value pc i 4
    let b ← read page src
    let op ← operator pc i 3
    let r ← defined pc i 3 (op.eval? a b)
    let dst ← value pc i 1
    write page dst r i.updateFlags
    return pc + 1
  | .jumpIf =>
    let page ← value pc i 0
    let src ← value pc i 1
    let a ← read page src
    let src ← value pc i 3
    let b ← read page src
    let op ← operator pc i 2
    if ← defined pc i 2 (op.holds? a b) then target pc i 4 else return pc + 1
  | .jumpNonzero =>
    if (← get).flags.zero then return pc + 1 else target pc i 0
  | .countDown =>
    let page ← value pc i 0
    let dst ← value pc i 1
    let a ← read page dst
    let r := a - 1
    write page dst r false
    if r = 0 then return pc + 1 else target pc i 2
  | .halt =>
    modify fun m => { m with halted := true }
    return pc
  | .pass => return pc + 1

/-- A program for the machine: for each address the instruction there, or why
there is none. -/
abbrev Code := Array (Except Error Instr)

/-- The code of words. -/
def Code.ofWords (words : List Word) : Code := (words.map decode).toArray

/-- Execute the instruction at the program counter. -/
def step (code : Code) : Exec Unit := do
  let pc := (← get).pc
  match code[pc]? with
  | none => throw (.outOfBounds pc)
  | some (.error e) => throw (.invalid pc e)
  | some (.ok i) =>
    let next ← execute pc i
    modify fun m => { m with pc := next }

/-- Run until the program halts, for at most `limit` steps, of which `left` remain. -/
def runFrom (code : Code) (limit : Nat) : Nat → Machine → Except Trap Nat × Machine
  | 0, m => (if m.halted then .ok limit else .error (.stepLimit limit), m)
  | left + 1, m =>
    if m.halted then (.ok (limit - (left + 1)), m)
    else
      match (step code).run m with
      | (.ok (), m) => runFrom code limit left m
      | (.error t, m) => (.error t, m)

/-- Run until the program halts, for at most `limit` steps. The result is the
number of steps made. -/
def run (code : Code) (limit : Nat) (m : Machine) : Except Trap Nat × Machine :=
  runFrom code limit limit m

end Machine

end PulseAsm
