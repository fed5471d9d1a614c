import PulseAsm.Proofs.Image
import PulseAsm.Proofs.Instr.Operands
import PulseAsm.Proofs.Machine.Execution

/-!
# Straight code

An instruction that neither jumps nor halts (`Instr.Straight`) goes on to the
next address. If it encodes, it does not trap, and it writes at most one
register, which can be read off its operands (`Instr.target?`). So a list of such
instructions, laid out in the code from an address on (`Code.HoldsAll`), runs to
the address after it with one step for each slot (`steps_of_holdsAll`): the zero
in the second slot of an instruction passes without effect.
-/

namespace PulseAsm

open Machine

/-- The instruction neither jumps nor halts. -/
def Instr.Straight (i : Instr) : Prop :=
  Action.ofMnemonic i.mnemonic ∈ [.loadImm, .combineImm, .combineReg, .pass]

instance (i : Instr) : Decidable i.Straight := inferInstanceAs (Decidable (_ ∈ _))

/-- The page and the address of the register that an instruction writes. -/
def Instr.target? (i : Instr) : Option (ℕ × ℕ) :=
  if Action.ofMnemonic i.mnemonic ∈ [.loadImm, .combineImm, .combineReg, .countDown] then
    match i.operands with
    | .value page :: .value dst :: _ => some (page.toNat, dst.toNat)
    | _ => none
  else none

/-! ### What a straight instruction does -/

/-- An arithmetic or bitwise operator has a result on all operands. -/
theorem Operator.exists_eval? {o : Operator} (h : o.space = .arith ∨ o.space = .bitwise) (a b : UInt32) :
    ∃ r, o.eval? a b = some r := by
  cases o <;> simp_all [Operator.space, Operator.eval?]

/-- The mnemonics of the actions that write a register and go on. -/
theorem Action.mnemonic_of_action {mnemonic : String} :
    (Action.ofMnemonic mnemonic = .loadImm → mnemonic = "regwi") ∧
    (Action.ofMnemonic mnemonic = .combineImm → mnemonic = "mathi" ∨ mnemonic = "bitwi") ∧
    (Action.ofMnemonic mnemonic = .combineReg → mnemonic = "math" ∨ mnemonic = "bitw") := by
  by_cases hpass : Action.ofMnemonic mnemonic = .pass
  · simp [hpass]
  · have htable : ∀ mnemonic ∈ ["regwi", "mathi", "bitwi", "math", "bitw", "condj", "jnz", "loopnz", "end"],
        (Action.ofMnemonic mnemonic = .loadImm → mnemonic = "regwi") ∧
        (Action.ofMnemonic mnemonic = .combineImm → mnemonic = "mathi" ∨ mnemonic = "bitwi") ∧
        (Action.ofMnemonic mnemonic = .combineReg → mnemonic = "math" ∨ mnemonic = "bitw") := by decide
    exact htable _ (mem_of_action_ne_pass hpass)

section Shapes

variable {i : Instr} {w : Word}

theorem exists_operands_loadImm (henc : encode i = .ok w) (hact : Action.ofMnemonic i.mnemonic = .loadImm) :
    ∃ (page dst : ℕ) (v : ℤ), page < 8 ∧ dst < 32 ∧
      i = ⟨"regwi", [.value page, .value dst, .value v], i.updateFlags⟩ := by
  obtain ⟨mnemonic, operands, u⟩ := i
  obtain rfl := Action.mnemonic_of_action.1 hact
  have hfields : (Descriptor.ofMnemonic? "regwi").map (·.fields) = some [.page 0, .reg 1 41, .imm 2] := rfl
  obtain ⟨hlen, haccepts⟩ := accepts_of_encode henc hfields
  obtain ⟨a, b, c, rfl⟩ := List.length_eq_three.mp hlen
  obtain ⟨page, ha, hpage⟩ := Field.accepts_page_iff.mp (haccepts (.page 0) (by simp))
  obtain ⟨dst, hb, hdst⟩ := Field.accepts_reg_iff.mp (haccepts (.reg 1 41) (by simp))
  obtain ⟨v, hc, -⟩ := (Field.accepts_imm_iff rfl).mp (haccepts (.imm 2) (by simp))
  cases ha
  cases hb
  cases hc
  exact ⟨page, dst, v, hpage, hdst, rfl⟩

/-- The operands of an instruction that combines a register with a last operand, of
which its field is known. -/
theorem exists_operands_combine {fields : List Field} {last : Field} {space : OpSpace} (henc : encode i = .ok w)
    (hfields : (Descriptor.ofMnemonic? i.mnemonic).map (·.fields) = some fields)
    (harity : fields.foldl (fun n f => max n (f.operand + 1)) 0 = 5)
    (hmem : ∀ f ∈ [.page 0, .reg 1 41, .reg 2 36, .op 3 space, last], f ∈ fields) (hlast : last.operand = 4) :
    ∃ (page dst src : ℕ) (op : Operator) (o : Operand), page < 8 ∧ dst < 32 ∧ src < 32 ∧ op.space = space ∧
      last.Accepts o ∧ i = ⟨i.mnemonic, [.value page, .value dst, .value src, .op op, o], i.updateFlags⟩ := by
  obtain ⟨mnemonic, operands, u⟩ := i
  obtain ⟨hlen, haccepts⟩ := accepts_of_encode henc hfields
  rw [harity] at hlen
  match operands, hlen with
  | [a, b, c, d, e], _ =>
    obtain ⟨page, ha, hpage⟩ := Field.accepts_page_iff.mp (haccepts (.page 0) (hmem _ (by simp)))
    obtain ⟨dst, hb, hdst⟩ := Field.accepts_reg_iff.mp (haccepts (.reg 1 41) (hmem _ (by simp)))
    obtain ⟨src, hc, hsrc⟩ := Field.accepts_reg_iff.mp (haccepts (.reg 2 36) (hmem _ (by simp)))
    obtain ⟨op, hd, hop⟩ := (Field.accepts_op_iff rfl).mp (haccepts (.op 3 space) (hmem _ (by simp)))
    have he := haccepts last (hmem _ (by simp))
    rw [hlast] at he
    cases ha
    cases hb
    cases hc
    cases hd
    exact ⟨page, dst, src, op, e, hpage, hdst, hsrc, hop, he, rfl⟩

theorem exists_operands_combineImm (henc : encode i = .ok w)
    (hact : Action.ofMnemonic i.mnemonic = .combineImm) :
    ∃ (page dst src : ℕ) (op : Operator) (v : ℤ), page < 8 ∧ dst < 32 ∧ src < 32 ∧
      (op.space = .arith ∨ op.space = .bitwise) ∧
      i = ⟨i.mnemonic, [.value page, .value dst, .value src, .op op, .value v], i.updateFlags⟩ := by
  have hfields : ∃ space, (space = .arith ∨ space = .bitwise) ∧
      (Descriptor.ofMnemonic? i.mnemonic).map (·.fields) =
        some [.page 0, .reg 1 41, .reg 2 36, .op 3 space, .imm 4] := by
    rcases Action.mnemonic_of_action.2.1 hact with h | h <;> rw [h]
    · exact ⟨.arith, Or.inl rfl, rfl⟩
    · exact ⟨.bitwise, Or.inr rfl, rfl⟩
  obtain ⟨space, hspace, hfields⟩ := hfields
  obtain ⟨page, dst, src, op, o, hpage, hdst, hsrc, hop, ho, hi⟩ :=
    exists_operands_combine henc hfields rfl (fun f hf => hf) rfl
  obtain ⟨v, rfl, -⟩ := (Field.accepts_imm_iff rfl).mp ho
  exact ⟨page, dst, src, op, v, hpage, hdst, hsrc, hop ▸ hspace, hi⟩

theorem exists_operands_combineReg (henc : encode i = .ok w)
    (hact : Action.ofMnemonic i.mnemonic = .combineReg) :
    ∃ (page dst src src' : ℕ) (op : Operator), page < 8 ∧ dst < 32 ∧ src < 32 ∧ src' < 32 ∧
      (op.space = .arith ∨ op.space = .bitwise) ∧
      i = ⟨i.mnemonic, [.value page, .value dst, .value src, .op op, .value src'], i.updateFlags⟩ := by
  have hfields : ∃ space fields, (space = .arith ∨ space = .bitwise) ∧
      (Descriptor.ofMnemonic? i.mnemonic).map (·.fields) = some fields ∧
      fields.foldl (fun n f => max n (f.operand + 1)) 0 = 5 ∧
      ∀ f ∈ [.page 0, .reg 1 41, .reg 2 36, .op 3 space, .reg 4 31], f ∈ fields := by
    rcases Action.mnemonic_of_action.2.2 hact with h | h <;> rw [h]
    · exact ⟨.arith, _, Or.inl rfl, rfl, by decide, by decide⟩
    · exact ⟨.bitwise, _, Or.inr rfl, rfl, by decide, by decide⟩
  obtain ⟨space, fields, hspace, hfields, harity, hmem⟩ := hfields
  obtain ⟨page, dst, src, op, o, hpage, hdst, hsrc, hop, ho, hi⟩ :=
    exists_operands_combine henc hfields harity hmem rfl
  obtain ⟨src', rfl, hsrc'⟩ := Field.accepts_reg_iff.mp ho
  exact ⟨page, dst, src, src', op, hpage, hdst, hsrc, hsrc', hop ▸ hspace, hi⟩

end Shapes

/-- A straight instruction that encodes leaves the machine as it is or assigns to
its target, a value that it computes from the registers. -/
theorem Instr.Straight.effect {i : Instr} {w : Word} (hs : i.Straight) (henc : encode i = .ok w) :
    (i.target? = none ∧ ∀ m pc, (execute pc i).apply m = (.ok (pc + 1), m)) ∨
      ∃ page dst, ∃ f : (ℕ → ℕ → Option UInt32) → UInt32, i.target? = some (page, dst) ∧ page < 8 ∧ dst < 32 ∧
        ∀ (m : Machine) pc, page < m.pages.size →
          (execute pc i).apply m = (.ok (pc + 1), m.assign page dst (f m.reg?) i.updateFlags) := by
  cases hact : Action.ofMnemonic i.mnemonic with
  | pass => exact Or.inl ⟨by simp [Instr.target?, hact], fun m pc => execute_pass hact pc⟩
  | loadImm =>
    obtain ⟨page, dst, v, hpage, hdst, hi⟩ := exists_operands_loadImm henc hact
    refine Or.inr ⟨page, dst, fun _ => immediate v, by rw [hi]; rfl, hpage, hdst, fun m pc hm => ?_⟩
    rw [hi]
    exact execute_loadImm hm hdst pc v _
  | combineImm =>
    obtain ⟨page, dst, src, op, v, hpage, hdst, hsrc, hop, hi⟩ := exists_operands_combineImm henc hact
    refine Or.inr ⟨page, dst, fun regs => (op.eval? ((regs page src).getD 0) (immediate v)).getD 0, ?_, hpage, hdst,
      fun m pc hm => ?_⟩
    · rw [hi]
      simp [Instr.target?, hact]
    · obtain ⟨a, ha⟩ := exists_reg? hm hsrc
      obtain ⟨r, hr⟩ := Operator.exists_eval? hop a (immediate v)
      rw [hi, execute_combineImm hact hm hdst ha hr]
      simp [ha, hr]
  | combineReg =>
    obtain ⟨page, dst, src, src', op, hpage, hdst, hsrc, hsrc', hop, hi⟩ := exists_operands_combineReg henc hact
    refine Or.inr ⟨page, dst, fun regs => (op.eval? ((regs page src).getD 0) ((regs page src').getD 0)).getD 0, ?_,
      hpage, hdst, fun m pc hm => ?_⟩
    · rw [hi]
      simp [Instr.target?, hact]
    · obtain ⟨a, ha⟩ := exists_reg? hm hsrc
      obtain ⟨b, hb⟩ := exists_reg? hm hsrc'
      obtain ⟨r, hr⟩ := Operator.exists_eval? hop a b
      rw [hi, execute_combineReg hact hm hdst ha hb hr]
      simp [ha, hb, hr]
  | _ => simp [Instr.Straight, hact] at hs

/-- The machine after an instruction, its program counter aside. -/
def Machine.perform (m : Machine) (i : Instr) : Machine := ((execute m.pc i).apply m).2

/-- The page that an instruction writes to is there. -/
def Instr.Fits (i : Instr) (m : Machine) : Prop := ∀ page dst, i.target? = some (page, dst) → page < m.pages.size

section Perform

variable {i : Instr} {w : Word} {m : Machine} (hs : i.Straight) (henc : encode i = .ok w) (hfits : i.Fits m)
include hs henc

theorem Instr.Straight.fits (hm : 8 ≤ m.pages.size) : i.Fits m := by
  intro page dst ht
  rcases hs.effect henc with ⟨h, -⟩ | ⟨page', dst', f, h, hpage, -⟩
  · rw [h] at ht
    cases ht
  · rw [h] at ht
    cases ht
    omega

include hfits

theorem Instr.Straight.execute_goto (pc a : ℕ) :
    (execute pc i).apply (m.goto a) = (.ok (pc + 1), (m.perform i).goto a) := by
  unfold perform
  rcases hs.effect henc with ⟨-, h⟩ | ⟨page, dst, f, ht, -, -, h⟩
  · rw [h, h]
  · rw [h (m.goto a) pc (hfits page dst ht), h m m.pc (hfits page dst ht), assign_goto, reg?_goto]

theorem Instr.Straight.perform_cases :
    m.perform i = m ∨
      ∃ page dst v, i.target? = some (page, dst) ∧ m.perform i = m.assign page dst v i.updateFlags := by
  unfold perform
  rcases hs.effect henc with ⟨-, h⟩ | ⟨page, dst, f, ht, -, -, h⟩
  · exact Or.inl (by rw [h])
  · exact Or.inr ⟨page, dst, f m.reg?, ht, by rw [h m _ (hfits page dst ht)]⟩

theorem Instr.Straight.reg?_perform {page reg : ℕ} (h : i.target? ≠ some (page, reg)) :
    (m.perform i).reg? page reg = m.reg? page reg := by
  rcases hs.perform_cases henc hfits with heq | ⟨page', dst, v, ht, heq⟩
  · rw [heq]
  · rw [heq]
    refine reg?_assign_ne (fun hreg => h ?_) v _
    rw [ht, hreg]

theorem Instr.Straight.pages_perform : (m.perform i).pages.size = m.pages.size := by
  rcases hs.perform_cases henc hfits with heq | ⟨page, dst, v, -, heq⟩
  · rw [heq]
  · rw [heq, size_pages_assign]

theorem Instr.Straight.halted_perform : (m.perform i).halted = m.halted := by
  rcases hs.perform_cases henc hfits with heq | ⟨page, dst, v, -, heq⟩
  · rw [heq]
  · rw [heq, halted_assign]

end Perform

/-! ### Code in a row -/

/-- The memory slots that instructions take. -/
def slotTotal (is : List Instr) : ℕ := (is.map fun i => slotsOf i.mnemonic).sum

@[simp] theorem slotTotal_nil : slotTotal [] = 0 := rfl

@[simp] theorem slotTotal_cons (i : Instr) (is : List Instr) :
    slotTotal (i :: is) = slotsOf i.mnemonic + slotTotal is := by simp [slotTotal]

theorem slotTotal_instrs (lines : List Line) : slotTotal (lines.map (·.instr)) = slotSum lines := by
  simp [slotTotal, slotSum, Function.comp_def]

/-- Instructions of one slot each. -/
theorem slotTotal_of_one {is : List Instr} (h : ∀ i ∈ is, slotsOf i.mnemonic = 1) : slotTotal is = is.length := by
  induction is with
  | nil => rfl
  | cons i is ih =>
    rw [List.forall_mem_cons] at h
    rw [slotTotal_cons, h.1, ih h.2, List.length_cons, Nat.add_comm]

/-- The instruction whose word is zero. -/
def nop : Instr := ⟨"nop", [], false⟩

/-- The words of instructions stand one after the other from an address on, with a
zero in each second slot. -/
def Machine.Code.HoldsAll (code : Code) : ℕ → List Instr → Prop
  | _, [] => True
  | a, i :: is =>
    code.Holds a i ∧ (slotsOf i.mnemonic = 2 → code.Holds (a + 1) nop) ∧ code.HoldsAll (a + slotsOf i.mnemonic) is

theorem Machine.Code.holdsAll_append {code : Code} {a : ℕ} {is js : List Instr} :
    code.HoldsAll a (is ++ js) ↔ code.HoldsAll a is ∧ code.HoldsAll (a + slotTotal is) js := by
  induction is generalizing a with
  | nil => simp [HoldsAll]
  | cons i is ih => simp [HoldsAll, ih, Nat.add_assoc, and_assoc]

/-- Instructions of one slot each stand at consecutive addresses. -/
theorem Machine.Code.holdsAll_of_forall {code : Code} {a : ℕ} {is : List Instr}
    (hslots : ∀ i ∈ is, slotsOf i.mnemonic = 1)
    (h : ∀ (k : ℕ) (i : Instr), is[k]? = some i → code.Holds (a + k) i) : code.HoldsAll a is := by
  induction is generalizing a with
  | nil => trivial
  | cons i is ih =>
    rw [List.forall_mem_cons] at hslots
    refine ⟨h 0 i rfl, fun htwo => by omega, ?_⟩
    rw [hslots.1]
    refine ih hslots.2 fun k j hk => ?_
    rw [Nat.add_assoc, Nat.add_comm 1 k]
    exact h (k + 1) j hk

/-- The image of a program holds its instructions from address zero on, their
labels replaced by addresses. -/
theorem holdsAll_assemble {pre lines post : List Line} {labels : LabelTable} {words : List Word}
    (h : assemble (pre ++ lines ++ post) labels = .ok words) :
    (Code.ofWords words).HoldsAll (slotSum pre) (lines.map fun l => l.instr.withAddresses labels) := by
  induction lines generalizing pre with
  | nil => trivial
  | cons l lines ih =>
    have hsplit : pre ++ l :: lines ++ post = pre ++ l :: (lines ++ post) := by simp
    obtain ⟨w, henc, hget, hpad⟩ := getElem?_assemble (hsplit ▸ h)
    refine ⟨⟨w, henc, ?_⟩, fun hslots => ⟨0, rfl, ?_⟩, ?_⟩
    · rw [Code.getElem?_ofWords, hget]
      rfl
    · rw [Code.getElem?_ofWords, hpad hslots]
      rfl
    · have hnext : slotSum pre + slotsOf (l.instr.withAddresses labels).mnemonic = slotSum (pre ++ [l]) := by
        rw [slotSum_append, slotSum_cons, slotSum_nil]
        rfl
      rw [hnext]
      exact ih (by simpa using h)

/-- **Straight code runs through**: in one step for each slot, the machine comes
to the address after the instructions, having performed each of them. -/
theorem steps_of_holdsAll {code : Code} {a : ℕ} {is : List Instr} {m : Machine} (hcode : code.HoldsAll a is)
    (hs : ∀ i ∈ is, i.Straight) (hfits : ∀ i ∈ is, i.Fits m) :
    Steps code (slotTotal is) (m.goto a) ((is.foldl perform m).goto (a + slotTotal is)) := by
  induction is generalizing a m with
  | nil => exact .refl _
  | cons i is ih =>
    obtain ⟨hi, hpad, hrest⟩ := hcode
    rw [List.forall_mem_cons] at hs hfits
    obtain ⟨w, henc, -⟩ := id hi
    -- the instruction itself
    have hstep : Steps code 1 (m.goto a) ((m.perform i).goto (a + 1)) :=
      .of_holds hi (hs.1.execute_goto henc hfits.1 a a) (hs.1.halted_perform henc hfits.1)
    -- the zero in its second slot
    have hslots : Steps code (slotsOf i.mnemonic) (m.goto a) ((m.perform i).goto (a + slotsOf i.mnemonic)) := by
      rcases slotsOf_cases i.mnemonic with h | h
      · rwa [h]
      · rw [h]
        exact hstep.trans (.of_holds (hpad h) (execute_pass (by decide) _) rfl)
    have hfits' : ∀ j ∈ is, j.Fits (m.perform i) := fun j hj page dst ht => by
      rw [hs.1.pages_perform henc hfits.1]
      exact hfits.2 j hj page dst ht
    rw [slotTotal_cons, Nat.add_comm _ (slotTotal is), List.foldl_cons, Nat.add_comm (slotTotal is),
      ← Nat.add_assoc, Nat.add_comm (slotsOf _)]
    exact hslots.trans (ih hrest hs.2 hfits')

end PulseAsm
