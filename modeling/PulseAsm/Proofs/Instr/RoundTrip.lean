import PulseAsm.Proofs.Isa.Layout

/-!
# Decoding undoes encoding

An instruction that encodes is read back from its word with its negative
immediates folded (`Instr.folded`): they were raised by `2^31` to fit the field,
and the decoder does not lower them again. All else comes back as it was, so two
instructions share a word only if they agree up to this folding.
-/

namespace PulseAsm

/-- Whether an operand stands in an immediate field. -/
def Descriptor.isImm (d : Descriptor) (k : ℕ) : Bool :=
  d.fields.any fun f => f.operand = k ∧ f.kind = .imm

/-- An operand as an immediate field hands it back. -/
def Operand.folded : Operand → Operand
  | .value v => .value (foldedImm v)
  | o => o

/-- Whether an operand of an instruction stands in an immediate field. -/
def Instr.isImm (i : Instr) (k : ℕ) : Bool :=
  match Descriptor.ofMnemonic? i.mnemonic with
  | some d => d.isImm k
  | none => false

/-- The instruction with its negative immediates raised by `2^31`. -/
def Instr.folded (i : Instr) : Instr :=
  { i with operands := i.operands.mapIdx fun k o => if i.isImm k then o.folded else o }

/-- No immediate of the instruction is negative. -/
def Instr.ImmNonneg (i : Instr) : Prop :=
  ∀ k v, i.operands[k]? = some (.value v) → i.isImm k → 0 ≤ v

theorem Instr.folded_of_immNonneg {i : Instr} (h : i.ImmNonneg) : i.folded = i := by
  have hops : (i.operands.mapIdx fun k o => if i.isImm k then o.folded else o) = i.operands := by
    apply List.ext_getElem?
    intro k
    rw [List.getElem?_mapIdx]
    cases ho : i.operands[k]? with
    | none => rfl
    | some o =>
      by_cases himm : i.isImm k
      · cases o with
        | value v => simp [himm, Operand.folded, foldedImm_of_nonneg (h k v ho himm)]
        | op o => simp [Operand.folded]
        | label name => simp [Operand.folded]
      · simp [himm]
  cases i
  simp only [Instr.folded, hops]

/-! ### Looking descriptors up -/

theorem Descriptor.mem_table_of_ofMnemonic? {mnemonic : String} {d : Descriptor}
    (h : ofMnemonic? mnemonic = some d) : d ∈ table := List.mem_of_find?_eq_some h

theorem Descriptor.mnemonic_of_ofMnemonic? {mnemonic : String} {d : Descriptor}
    (h : ofMnemonic? mnemonic = some d) : d.mnemonic = mnemonic := by
  simpa using List.find?_some h

/-- A descriptor of the table is found by its opcode. -/
theorem Descriptor.ofOpcode?_opcode {d : Descriptor} (hd : d ∈ table) : ofOpcode? d.opcode = some d :=
  find?_eq_self table_opcodes_distinct hd

/-! ### Reading operands back -/

/-- An operator is found by its space and its code. -/
theorem Operator.ofCode?_code (o : Operator) : ofCode? o.space o.code = some o := by
  cases o <;> decide

/-- A field reads back the operand whose bits it holds. -/
theorem Field.decode_of_encode {mnemonic : String} {f : Field} {o : Operand} {w : Word}
    (h : f.encode mnemonic o = .ok (f.extract w)) :
    f.decode mnemonic w = .ok (if f.kind = .imm then o.folded else o) := by
  cases o with
  | label name => cases hk : f.kind <;> simp [Field.encode, hk] at h
  | op o =>
    cases hk : f.kind with
    | op space =>
      simp only [Field.encode, hk] at h
      split at h
      · rename_i hspace
        subst hspace
        have hcode : o.code = f.extract w := Except.ok.inj h
        simp only [Field.decode, hk, ← hcode, Operator.ofCode?_code]
        rfl
      · cases h
    | _ => simp [Field.encode, hk] at h
  | value v =>
    cases hk : f.kind with
    | op space => simp [Field.encode, hk] at h
    | imm =>
      simp only [Field.encode, hk] at h
      obtain ⟨-, hv⟩ := foldImm_eq_ok_iff.mp h
      simp [Field.decode, hk, Operand.folded, hv]
    | _ =>
      simp only [Field.encode, hk] at h
      split at h
      · rename_i hrange
        have hv : v.toNat = f.extract w := Except.ok.inj h
        simp only [Field.decode, hk, ← hv, Int.toNat_of_nonneg hrange.1]
        rfl
      · cases h

namespace Descriptor.WellFormed

variable {d : Descriptor} (wf : d.WellFormed)
include wf

/-- Fields of one operand are of one kind, so any of them tells whether the
operand is an immediate. -/
theorem isImm_operand {f : Field} (hf : f ∈ d.fields) : d.isImm f.operand = decide (f.kind = .imm) := by
  unfold isImm
  rw [Bool.eq_iff_iff, List.any_eq_true, decide_eq_true_iff]
  constructor
  · rintro ⟨g, hg, h⟩
    obtain ⟨hop, hkind⟩ := of_decide_eq_true h
    rw [wf.kind f hf g hg hop.symm, hkind]
  · intro h
    exact ⟨f, hf, decide_eq_true ⟨rfl, h⟩⟩

/-- Each operand is read back, folded if it is an immediate. -/
theorem decodeOperand_word {operands : List Operand} {u : Bool} {fields flags : Word}
    (hfields : encodeFields d.mnemonic operands d.fields = .ok fields)
    (hflags : d.encodeFlags u = .ok flags) {k : ℕ} (hk : k < d.arity) :
    d.decodeOperand (d.base ||| fields ||| flags) k =
      .ok (if d.isImm k then (operands.getD k (.value 0)).folded else operands.getD k (.value 0)) := by
  obtain ⟨f, hfind⟩ := Option.isSome_iff_exists.mp (wf.carried k hk)
  have hf : f ∈ d.fields := List.mem_of_find?_eq_some hfind
  have hop : f.operand = k := by simpa using List.find?_some hfind
  subst hop
  have hdecode := Field.decode_of_encode (wf.extract_word hfields hflags hf)
  simp only [decodeOperand, hfind, hdecode, wf.isImm_operand hf, decide_eq_true_eq]

end Descriptor.WellFormed

/-! ### Reading instructions back -/

/-- The word of an instruction decodes to the instruction, folded. -/
theorem decode_of_encode {i : Instr} {w : Word} (h : encode i = .ok w) : decode w = .ok i.folded := by
  obtain ⟨d, hd, hlen, fields, flags, hfields, hflags, rfl⟩ := encode_eq_ok_iff.mp h
  have hmem := Descriptor.mem_table_of_ofMnemonic? hd
  have wf := wellFormed_of_mem_table d hmem
  have hops : (List.range d.arity).mapM (d.decodeOperand (d.base ||| fields ||| flags)) =
      .ok i.folded.operands := by
    rw [mapM_eq_ok_iff, List.forall₂_iff_get]
    refine ⟨by simp [Instr.folded, hlen], fun k h₁ h₂ => ?_⟩
    have hk : k < d.arity := by simpa using h₁
    have hi : k < i.operands.length := by omega
    have hget : i.operands.getD k (.value 0) = i.operands[k] := by simp [List.getD, hi]
    simp only [List.get_eq_getElem, List.getElem_range, wf.decodeOperand_word hfields hflags hk, hget]
    simp [Instr.folded, Instr.isImm, hd]
  unfold decode
  rw [wf.opcodeOf_word hfields hflags, Descriptor.ofOpcode?_opcode hmem]
  simp only [hops, wf.decodeFlags_word hfields hflags, Descriptor.mnemonic_of_ofMnemonic? hd]
  rfl

/-- **Decoding undoes encoding**: the word of an instruction decodes to the same
instruction with its negative immediates raised by `2^31`, so to the instruction
itself if it has none, and no other instruction has the word but those that agree
with it up to this folding. -/
theorem decode_undoes_encode (i : Instr) (w : Word) (h : encode i = .ok w) :
    decode w = .ok i.folded ∧ (i.ImmNonneg → decode w = .ok i) ∧
      ∀ j, encode j = .ok w → j.mnemonic = i.mnemonic ∧ j.updateFlags = i.updateFlags ∧
        j.folded.operands = i.folded.operands := by
  have hi := decode_of_encode h
  refine ⟨hi, fun himm => ?_, fun j hj => ?_⟩
  · rw [hi, Instr.folded_of_immNonneg himm]
  · have heq : j.folded = i.folded := Except.ok.inj ((decode_of_encode hj).symm.trans hi)
    have hmnemonic : j.folded.mnemonic = i.folded.mnemonic := by rw [heq]
    have hflags : j.folded.updateFlags = i.folded.updateFlags := by rw [heq]
    exact ⟨hmnemonic, hflags, by rw [heq]⟩

/-- A subtraction of `-3` on page 2 with the flags updated: the immediate comes
back as `2^31 - 3`, next to the flag-update bit. -/
theorem decode_undoes_encode_mathi :
    encode ⟨"mathi", [.value 2, .value 5, .value 7, .op .sub, .value (-3)], true⟩ =
        .ok 0x12424A70FFFFFFFD ∧
      decode 0x12424A70FFFFFFFD =
        .ok ⟨"mathi", [.value 2, .value 5, .value 7, .op .sub, .value 0x7FFFFFFD], true⟩ := by
  have h : encode ⟨"mathi", [.value 2, .value 5, .value 7, .op .sub, .value (-3)], true⟩ =
      .ok 0x12424A70FFFFFFFD := by rfl
  exact ⟨h, (decode_undoes_encode _ _ h).1⟩

end PulseAsm
