import PulseAsm.Proofs.Instr.Decoding
import PulseAsm.Proofs.Instr.Operands

/-!
# Instructions that do not encode

Why a field refuses an operand (`Field.Rejects`), why an instruction is refused
(`Instr.Rejected`), and which error is reported. An unknown mnemonic comes first, then a
wrong number of operands, then the first field in the order of the table that refuses its
operand, and last an update of the flags that cannot be asked for. Each fault is said
together with all that was in order before it was found.

The order of the table is not that of the operands: several instructions check a later
operand first, and one operand may stand in two fields.
-/

namespace PulseAsm

/-! ### Fields -/

/-- The operand does not belong in the field, and this is what the field reports: an
operand of the wrong kind, or a number that is out of range. -/
inductive Field.Rejects (mnemonic : String) (f : Field) : Operand → Error → Prop where
  /-- An operator field gets something else than an operator of its space. -/
  | operator {space : OpSpace} {o : Operand} (hk : f.kind = .op space)
      (ho : ∀ op : Operator, o = .op op → op.space ≠ space) :
      f.Rejects mnemonic o (.operandKind mnemonic f.operand .operator)
  /-- Any other field gets an operator. -/
  | number {op : Operator} (hk : f.kind.isOp = false) :
      f.Rejects mnemonic (.op op) (.operandKind mnemonic f.operand .number)
  /-- Any other field gets a label. -/
  | address {name : String} (hk : f.kind.isOp = false) :
      f.Rejects mnemonic (.label name) (.operandKind mnemonic f.operand .address)
  /-- An immediate does not fold. -/
  | imm {v : ℤ} (hk : f.kind = .imm) (hv : ¬ (-2 ^ 31 ≤ v ∧ v < 2 ^ 31)) :
      f.Rejects mnemonic (.value v)
        (.range ⟨s!"{mnemonic}.op{f.operand}", v, "signed 31-bit: [-2^31, 2^31)"⟩)
  /-- A number does not fit the bits of the field. -/
  | width {v : ℤ} (hop : f.kind.isOp = false) (himm : f.kind ≠ .imm)
      (hv : ¬ (0 ≤ v ∧ v < (2 ^ f.width : ℕ))) :
      f.Rejects mnemonic (.value v)
        (.range ⟨s!"{mnemonic}.op{f.operand}", v, s!"[0, {2 ^ f.width - 1}]"⟩)

theorem foldImm_eq_error_iff {field : String} {v : ℤ} {e : Error} :
    foldImm field v = .error e ↔
      ¬ (-2 ^ 31 ≤ v ∧ v < 2 ^ 31) ∧ e = .range ⟨field, v, "signed 31-bit: [-2^31, 2^31)"⟩ := by
  unfold foldImm
  rw [immLimit_eq]
  by_cases h : -2 ^ 31 ≤ v ∧ v < 2 ^ 31
  · rw [if_pos h]
    constructor
    · intro h'
      cases h'
    · intro h'
      exact absurd h h'.1
  · rw [if_neg h, Except.error.injEq, and_iff_right h, eq_comm]
    rfl

namespace Field

variable {mnemonic : String} {f : Field} {o : Operand} {e : Error}

theorem exists_space_of_isOp (h : f.kind.isOp) : ∃ space, f.kind = .op space := by
  cases hk : f.kind with
  | op space => exact ⟨space, rfl⟩
  | _ => simp [hk, FieldKind.isOp] at h

theorem encode_op_of_not_isOp (h : f.kind.isOp = false) (op : Operator) :
    f.encode mnemonic (.op op) = .error (.operandKind mnemonic f.operand .number) := by
  cases hk : f.kind with
  | op space => simp [hk, FieldKind.isOp] at h
  | _ => simp only [Field.encode, hk]

theorem encode_label_of_not_isOp (h : f.kind.isOp = false) (name : String) :
    f.encode mnemonic (.label name) = .error (.operandKind mnemonic f.operand .address) := by
  cases hk : f.kind with
  | op space => simp [hk, FieldKind.isOp] at h
  | _ => simp only [Field.encode, hk]

theorem encode_value_of_plain (hop : f.kind.isOp = false) (himm : f.kind ≠ .imm) (v : ℤ) :
    f.encode mnemonic (.value v) =
      if 0 ≤ v ∧ v ≤ f.mask then .ok v.toNat
      else .error (.outOfRange (f.name mnemonic) v s!"[0, {f.mask}]") := by
  cases hk : f.kind with
  | op space => simp [hk, FieldKind.isOp] at hop
  | imm => exact absurd hk himm
  | _ => simp only [Field.encode, hk]

theorem le_mask_iff (f : Field) (v : ℤ) : v ≤ f.mask ↔ v < (2 ^ f.width : ℕ) := by
  have hpos : 0 < 2 ^ f.width := Nat.two_pow_pos f.width
  rw [mask_eq]
  omega

/-- A field fails exactly if it refuses its operand. -/
theorem encode_eq_error_iff : f.encode mnemonic o = .error e ↔ f.Rejects mnemonic o e := by
  constructor
  · intro h
    cases hk : f.kind.isOp with
    | true =>
      obtain ⟨space, hspace⟩ := exists_space_of_isOp hk
      cases o with
      | op op =>
        simp only [Field.encode, hspace] at h
        split at h
        · cases h
        · rename_i hne
          cases h
          exact .operator hspace fun op' hop => Operand.op.inj hop ▸ hne
      | _ =>
        simp only [Field.encode, hspace] at h
        cases h
        exact .operator hspace (by simp)
    | false =>
      cases o with
      | op op =>
        rw [encode_op_of_not_isOp hk] at h
        cases h
        exact .number hk
      | label name =>
        rw [encode_label_of_not_isOp hk] at h
        cases h
        exact .address hk
      | value v =>
        by_cases himm : f.kind = .imm
        · simp only [Field.encode, himm] at h
          obtain ⟨hv, rfl⟩ := foldImm_eq_error_iff.mp h
          exact .imm himm hv
        · rw [encode_value_of_plain hk himm, mask_eq] at h
          split at h
          · cases h
          · rename_i hv
            rw [← mask_eq, le_mask_iff] at hv
            cases h
            exact .width hk himm hv
  · intro h
    cases h with
    | operator hk ho =>
      cases o with
      | op op => simp [Field.encode, hk, ho op rfl]
      | _ => simp only [Field.encode, hk]
    | number hk => exact encode_op_of_not_isOp hk _
    | address hk => exact encode_label_of_not_isOp hk _
    | imm hk hv =>
      simp only [Field.encode, hk]
      exact foldImm_eq_error_iff.mpr ⟨hv, rfl⟩
    | width hop himm hv =>
      rw [encode_value_of_plain hop himm, if_neg (by rwa [le_mask_iff]), mask_eq]
      rfl

/-- What a field takes, by what it holds. -/
theorem accepts_iff :
    f.Accepts o ↔
      (∀ space, f.kind = .op space → ∃ op : Operator, o = .op op ∧ op.space = space) ∧
      (f.kind = .imm → ∃ v : ℤ, o = .value v ∧ -2 ^ 31 ≤ v ∧ v < 2 ^ 31) ∧
      (f.kind.isOp = false → f.kind ≠ .imm → ∃ v : ℤ, o = .value v ∧ 0 ≤ v ∧ v < (2 ^ f.width : ℕ)) := by
  cases hk : f.kind.isOp with
  | true =>
    obtain ⟨space, hspace⟩ := exists_space_of_isOp hk
    rw [accepts_op_iff hspace]
    simp [hspace]
  | false =>
    have hop : ∀ space, f.kind ≠ .op space := by
      intro space hspace
      rw [hspace] at hk
      cases hk
    by_cases himm : f.kind = .imm
    · rw [accepts_imm_iff himm]
      simp [himm]
    · rw [accepts_nat_iff hop himm]
      simp only [hop, himm, false_imp_iff, implies_true, true_and, ne_eq, not_false_eq_true, true_imp_iff]
      constructor
      · rintro ⟨n, rfl, hn⟩
        exact ⟨n, rfl, by omega, by omega⟩
      · rintro ⟨v, rfl, hv, hlt⟩
        exact ⟨v.toNat, by rw [Int.toNat_of_nonneg hv], by omega⟩

end Field

/-! ### Instructions -/

theorem encodeFields_eq_error_iff {mnemonic : String} {operands : List Operand} {fs : List Field} {e : Error} :
    encodeFields mnemonic operands fs = .error e ↔
      ∃ pre f post, fs = pre ++ f :: post ∧ (∀ g ∈ pre, g.Accepts (operands.getD g.operand (.value 0))) ∧
        f.Rejects mnemonic (operands.getD f.operand (.value 0)) e := by
  induction fs with
  | nil => simp [encodeFields]
  | cons f fs ih =>
    rw [encodeFields, bind_eq_error_iff, Field.encode_eq_error_iff]
    constructor
    · rintro (h | ⟨bits, hf, h⟩)
      · exact ⟨[], f, fs, rfl, List.forall_mem_nil _, h⟩
      · rcases bind_eq_error_iff.mp h with h | ⟨_, -, h⟩
        · obtain ⟨pre, g, post, rfl, hpre, hg⟩ := ih.mp h
          have hf : f.Accepts (operands.getD f.operand (.value 0)) := Field.exists_encode_iff.mp ⟨bits, hf⟩
          exact ⟨f :: pre, g, post, rfl, List.forall_mem_cons.mpr ⟨hf, hpre⟩, hg⟩
        · cases h
    · rintro ⟨pre, g, post, hfs, hpre, hg⟩
      cases pre with
      | nil =>
        cases hfs
        exact Or.inl hg
      | cons f' pre =>
        cases hfs
        obtain ⟨hf, hpre⟩ := List.forall_mem_cons.mp hpre
        obtain ⟨bits, hbits⟩ := Field.exists_encode_iff.mpr hf
        exact Or.inr ⟨bits, hbits, bind_eq_error_iff.mpr (Or.inl (ih.mpr ⟨pre, g, post, rfl, hpre, hg⟩))⟩

theorem Descriptor.encodeFlags_eq_error_iff {d : Descriptor} {u : Bool} {e : Error} :
    d.encodeFlags u = .error e ↔ (u = true ∧ d.flagBit = none) ∧ e = .noUpdateFlags d.mnemonic := by
  unfold encodeFlags
  cases u <;> cases d.flagBit <;> simp [eq_comm]

namespace Instr

/-- The operand that a field is for is there, and the field takes it. -/
def Fills (i : Instr) (f : Field) : Prop := ∃ o, i.operands[f.operand]? = some o ∧ f.Accepts o

/-- The instruction does not encode, and this is what is reported. -/
inductive Rejected (i : Instr) : Error → Prop where
  /-- The mnemonic is not in the table. -/
  | mnemonic (h : ∀ d ∈ table, d.mnemonic ≠ i.mnemonic) : i.Rejected (.unknownMnemonic i.mnemonic)
  /-- It is, but the number of operands is wrong. -/
  | count {d : Descriptor} (hd : d ∈ table) (hm : d.mnemonic = i.mnemonic) (h : i.operands.length ≠ d.arity) :
      i.Rejected (.operandCount i.mnemonic d.arity i.operands.length)
  /-- It is right, but a field refuses its operand, and none before it does. -/
  | field {d : Descriptor} {pre post : List Field} {f : Field} {o : Operand} {e : Error} (hd : d ∈ table)
      (hm : d.mnemonic = i.mnemonic) (hlen : i.operands.length = d.arity) (hfields : d.fields = pre ++ f :: post)
      (hpre : ∀ g ∈ pre, i.Fills g) (ho : i.operands[f.operand]? = some o) (h : f.Rejects i.mnemonic o e) :
      i.Rejected e
  /-- None does, but the flags are to be updated, and there is no bit to ask for it. -/
  | flags {d : Descriptor} (hd : d ∈ table) (hm : d.mnemonic = i.mnemonic) (hlen : i.operands.length = d.arity)
      (hfields : ∀ f ∈ d.fields, i.Fills f) (hu : i.updateFlags = true) (h : d.flagBit = none) :
      i.Rejected (.noUpdateFlags i.mnemonic)

variable {i : Instr} {d : Descriptor} {f : Field} {e : Error}

/-- As soon as the number of operands is right, every field has an operand. -/
theorem exists_operand (hd : d ∈ table) (hlen : i.operands.length = d.arity) (hf : f ∈ d.fields) :
    ∃ o, i.operands[f.operand]? = some o ∧ i.operands.getD f.operand (.value 0) = o := by
  have hlt : f.operand < i.operands.length := hlen ▸ table_operand_lt_arity d hd f hf
  refine ⟨_, List.getElem?_eq_getElem hlt, ?_⟩
  rw [List.getD_eq_getElem?_getD, List.getElem?_eq_getElem hlt, Option.getD_some]

theorem fills_iff (hd : d ∈ table) (hlen : i.operands.length = d.arity) (hf : f ∈ d.fields) :
    i.Fills f ↔ f.Accepts (i.operands.getD f.operand (.value 0)) := by
  obtain ⟨o, ho, hget⟩ := exists_operand hd hlen hf
  rw [hget, Fills, ho]
  simp

end Instr

theorem Descriptor.ofMnemonic?_eq_none_iff {mnemonic : String} :
    ofMnemonic? mnemonic = none ↔ ∀ d ∈ table, d.mnemonic ≠ mnemonic := by
  simp [ofMnemonic?]

/-- An instruction that is in the table fails over the number of its operands, over a field,
or over the update of the flags, in this order. -/
theorem encode_eq_error_of_mem {i : Instr} {d : Descriptor} {e : Error} (hd : d ∈ table)
    (hm : d.mnemonic = i.mnemonic) :
    encode i = .error e ↔
      i.operands.length ≠ d.arity ∧ e = .operandCount i.mnemonic d.arity i.operands.length ∨
      i.operands.length = d.arity ∧
        (encodeFields i.mnemonic i.operands d.fields = .error e ∨
          (∀ f ∈ d.fields, i.Fills f) ∧ d.encodeFlags i.updateFlags = .error e) := by
  unfold encode
  rw [Descriptor.ofMnemonic?_eq_some_iff.mpr ⟨hd, hm⟩]
  simp only [hm]
  by_cases hlen : i.operands.length = d.arity
  · have hfills : (∃ w, encodeFields i.mnemonic i.operands d.fields = .ok w) ↔ ∀ f ∈ d.fields, i.Fills f :=
      exists_encodeFields_iff.trans (forall₂_congr fun f hf => (Instr.fills_iff hd hlen hf).symm)
    simp only [hlen, if_true, ne_eq, not_true, false_and, false_or, true_and, ← hfills, bind_eq_error_iff]
    refine or_congr_right ?_
    constructor
    · rintro ⟨w, hw, h | ⟨flags, -, h⟩⟩
      · exact ⟨⟨w, hw⟩, h⟩
      · cases h
    · rintro ⟨⟨w, hw⟩, h⟩
      exact ⟨w, hw, Or.inl h⟩
  · simp only [hlen, if_false, ne_eq, not_false_eq_true, true_and, false_and, or_false, Except.error.injEq]
    exact eq_comm

/-- An instruction fails to encode exactly if it is refused. -/
theorem encode_eq_error_iff {i : Instr} {e : Error} : encode i = .error e ↔ i.Rejected e := by
  constructor
  · intro h
    cases hdesc : Descriptor.ofMnemonic? i.mnemonic with
    | none =>
      simp only [encode, hdesc] at h
      cases h
      exact .mnemonic (Descriptor.ofMnemonic?_eq_none_iff.mp hdesc)
    | some d =>
      obtain ⟨hd, hm⟩ := Descriptor.ofMnemonic?_eq_some_iff.mp hdesc
      rcases (encode_eq_error_of_mem hd hm).mp h with ⟨hlen, rfl⟩ | ⟨hlen, h | ⟨hfields, h⟩⟩
      · exact .count hd hm hlen
      · obtain ⟨pre, f, post, hfields, hpre, hf⟩ := encodeFields_eq_error_iff.mp h
        have hmem : ∀ g ∈ pre, g ∈ d.fields := fun g hg => hfields ▸ List.mem_append_left _ hg
        obtain ⟨o, ho, hget⟩ := Instr.exists_operand hd hlen (hfields ▸ List.mem_append_cons_self : f ∈ d.fields)
        exact .field hd hm hlen hfields (fun g hg => (Instr.fills_iff hd hlen (hmem g hg)).mpr (hpre g hg)) ho
          (hget ▸ hf)
      · obtain ⟨⟨hu, hbit⟩, rfl⟩ := Descriptor.encodeFlags_eq_error_iff.mp h
        exact hm ▸ .flags hd hm hlen hfields hu hbit
  · intro h
    cases h with
    | mnemonic h => simp only [encode, Descriptor.ofMnemonic?_eq_none_iff.mpr h]
    | count hd hm h => exact (encode_eq_error_of_mem hd hm).mpr (Or.inl ⟨h, rfl⟩)
    | @field d pre post f o e hd hm hlen hfields hpre ho h =>
      have hmem : ∀ g ∈ pre, g ∈ d.fields := fun g hg => hfields ▸ List.mem_append_left _ hg
      refine (encode_eq_error_of_mem hd hm).mpr (Or.inr ⟨hlen, Or.inl ?_⟩)
      refine encodeFields_eq_error_iff.mpr ⟨pre, f, post, hfields, ?_, ?_⟩
      · intro g hg
        exact (Instr.fills_iff hd hlen (hmem g hg)).mp (hpre g hg)
      · rwa [List.getD_eq_getElem?_getD, ho, Option.getD_some]
    | flags hd hm hlen hfields hu h =>
      refine (encode_eq_error_of_mem hd hm).mpr (Or.inr ⟨hlen, Or.inr ⟨hfields, ?_⟩⟩)
      exact Descriptor.encodeFlags_eq_error_iff.mpr ⟨⟨hu, h⟩, by rw [hm]⟩

/-- **Encoding takes the well-formed instructions and no others**: an instruction encodes
exactly if its mnemonic is in the table, it has as many operands as the table says, every
operator field gets an operator of its space, every immediate field a number in
`[-2^31, 2^31)` and every other field a number in `[0, 2^width)`, and it updates the flags
only if there is a bit to ask for it. Otherwise it is refused for the first of these that is
violated, a field being named by the mnemonic and the index of its operand, and fields being
looked at in the order of the table. -/
theorem encode_takes_well_formed (i : Instr) :
    ((∃ w, encode i = .ok w) ↔
      ∃ d ∈ table, d.mnemonic = i.mnemonic ∧ i.operands.length = d.arity ∧
        (∀ f ∈ d.fields, ∃ o, i.operands[f.operand]? = some o ∧
          (∀ space, f.kind = .op space → ∃ op : Operator, o = .op op ∧ op.space = space) ∧
          (f.kind = .imm → ∃ v : ℤ, o = .value v ∧ -2 ^ 31 ≤ v ∧ v < 2 ^ 31) ∧
          (f.kind.isOp = false → f.kind ≠ .imm →
            ∃ v : ℤ, o = .value v ∧ 0 ≤ v ∧ v < (2 ^ f.width : ℕ))) ∧
        (i.updateFlags = true → d.flagBit.isSome)) ∧
    ∀ e, encode i = .error e ↔ i.Rejected e := by
  refine ⟨?_, fun e => encode_eq_error_iff⟩
  simp only [← Field.accepts_iff]
  rw [exists_encode_iff]
  constructor
  · rintro ⟨d, hdesc, hlen, hfields, hflags⟩
    obtain ⟨hd, hm⟩ := Descriptor.ofMnemonic?_eq_some_iff.mp hdesc
    exact ⟨d, hd, hm, hlen, fun f hf => (Instr.fills_iff hd hlen hf).mpr (hfields f hf), hflags⟩
  · rintro ⟨d, hd, hm, hlen, hfields, hflags⟩
    exact ⟨d, Descriptor.ofMnemonic?_eq_some_iff.mpr ⟨hd, hm⟩, hlen,
      fun f hf => (Instr.fills_iff hd hlen hf).mp (hfields f hf), hflags⟩

/-- Two registers are too large and the flags cannot be updated: the second of the registers is
reported, because its field comes first in the table. -/
theorem encode_takes_well_formed_table_order :
    encode { mnemonic := "setb", operands := [.value 0, .value 40, .value 50], updateFlags := true } =
      .error (.range ⟨"setb.op2", 50, "[0, 31]"⟩) := by
  obtain ⟨d, hd, hm, hlen, hfields⟩ : ∃ d ∈ table, d.mnemonic = "setb" ∧ 3 = d.arity ∧
      d.fields = [.page 0] ++ .reg 2 36 :: [.reg 1 31] := by decide
  refine ((encode_takes_well_formed _).2 _).mpr (.field hd hm hlen hfields ?_ rfl ?_)
  · intro g hg
    rw [List.mem_singleton.mp hg]
    exact ⟨.value 0, rfl, Field.accepts_page_iff.mpr ⟨0, rfl, by decide⟩⟩
  · exact .width rfl (by decide) (by decide)

end PulseAsm
