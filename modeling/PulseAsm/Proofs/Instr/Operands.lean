import PulseAsm.Proofs.Isa.Layout

/-!
# Operands that encode

Which operands a field takes (`Field.Accepts`), and from it when an instruction
encodes at all: its mnemonic is known, the number of operands is right, every
field takes its operand, and the flags are updated only where there is a bit to
ask for it.
-/

namespace PulseAsm

/-- The operands that a field takes: an operator of its space, an immediate in
`[-2^31, 2^31)`, or a number that its bits can hold. -/
def Field.Accepts (f : Field) : Operand → Prop
  | .value v =>
    match f.kind with
    | .op _ => False
    | .imm => -2 ^ 31 ≤ v ∧ v < 2 ^ 31
    | _ => 0 ≤ v ∧ v ≤ f.mask
  | .op o => f.kind = .op o.space
  | .label _ => False

theorem Field.exists_encode_iff {mnemonic : String} {f : Field} {o : Operand} :
    (∃ bits, f.encode mnemonic o = .ok bits) ↔ f.Accepts o := by
  cases o with
  | label name => cases hk : f.kind <;> simp [Field.encode, Field.Accepts, hk]
  | op o =>
    cases hk : f.kind with
    | op space =>
      by_cases hspace : o.space = space
      · simp [Field.encode, Field.Accepts, hk, hspace]
      · simp [Field.encode, Field.Accepts, hk, hspace, Ne.symm hspace]
    | _ => simp [Field.encode, Field.Accepts, hk]
  | value v =>
    cases hk : f.kind with
    | op space => simp [Field.encode, Field.Accepts, hk]
    | imm =>
      simp only [Field.encode, Field.Accepts, hk, foldImm_eq_ok_iff]
      constructor
      · rintro ⟨bits, h, -⟩
        exact h
      · intro h
        refine ⟨(foldedImm v).toNat, h, Int.toNat_of_nonneg ?_⟩
        unfold foldedImm
        split <;> omega
    | _ =>
      simp only [Field.encode, Field.Accepts, hk]
      by_cases h : 0 ≤ v ∧ v ≤ f.mask <;> simp [h]

namespace Field

variable {f : Field} {o : Operand}

theorem accepts_op_iff {space : OpSpace} (hk : f.kind = .op space) :
    f.Accepts o ↔ ∃ op : Operator, o = .op op ∧ op.space = space := by
  cases o with
  | op op => simp [Accepts, hk, eq_comm]
  | value v => simp [Accepts, hk]
  | label name => simp [Accepts]

theorem accepts_imm_iff (hk : f.kind = .imm) :
    f.Accepts o ↔ ∃ v : ℤ, o = .value v ∧ -2 ^ 31 ≤ v ∧ v < 2 ^ 31 := by
  cases o with
  | op op => simp [Accepts, hk]
  | value v => simp [Accepts, hk]
  | label name => simp [Accepts]

theorem accepts_imm_natCast {k n : ℕ} (h : n < 2 ^ 31) : (imm k).Accepts (.value n) :=
  (accepts_imm_iff rfl).mpr ⟨n, rfl, by omega, by omega⟩

/-- A field of any other kind takes the numbers that its bits can hold. -/
theorem accepts_nat_iff (hop : ∀ space, f.kind ≠ .op space) (himm : f.kind ≠ .imm) :
    f.Accepts o ↔ ∃ n : ℕ, o = .value n ∧ n < 2 ^ f.width := by
  cases o with
  | op op => simp [Accepts, hop]
  | value v =>
    have hpos : 0 < 2 ^ f.width := Nat.two_pow_pos f.width
    have hrange : f.Accepts (.value v) ↔ 0 ≤ v ∧ v ≤ (2 ^ f.width - 1 : ℕ) := by
      cases hk : f.kind <;> simp_all [Accepts, mask_eq]
    rw [hrange]
    constructor
    · rintro ⟨h, h'⟩
      exact ⟨v.toNat, by rw [Int.toNat_of_nonneg h], by omega⟩
    · rintro ⟨n, hv, hn⟩
      have hv : v = n := by simpa using hv
      omega
  | label name => simp [Accepts]

theorem accepts_page_iff {k : ℕ} : (page k).Accepts o ↔ ∃ n : ℕ, o = .value n ∧ n < 8 :=
  accepts_nat_iff (by simp [page]) (by simp [page])

theorem accepts_channel_iff {k : ℕ} : (channel k).Accepts o ↔ ∃ n : ℕ, o = .value n ∧ n < 8 :=
  accepts_nat_iff (by simp [channel]) (by simp [channel])

theorem accepts_flag_iff {k offset : ℕ} : (flag k offset).Accepts o ↔ ∃ n : ℕ, o = .value n ∧ n < 2 :=
  accepts_nat_iff (by simp [flag]) (by simp [flag])

theorem accepts_addr_iff {k : ℕ} : (addr k).Accepts o ↔ ∃ n : ℕ, o = .value n ∧ n < 2 ^ 16 :=
  accepts_nat_iff (by simp [addr]) (by simp [addr])

theorem accepts_reg_iff {k offset : ℕ} : (reg k offset).Accepts o ↔ ∃ n : ℕ, o = .value n ∧ n < 32 :=
  accepts_nat_iff (by simp [reg]) (by simp [reg])

end Field

/-- The fields encode exactly if each takes its operand. -/
theorem exists_encodeFields_iff {mnemonic : String} {operands : List Operand} {fs : List Field} :
    (∃ w, encodeFields mnemonic operands fs = .ok w) ↔
      ∀ f ∈ fs, f.Accepts (operands.getD f.operand (.value 0)) := by
  induction fs with
  | nil => simp [encodeFields]
  | cons f fs ih =>
    rw [List.forall_mem_cons, ← ih, ← Field.exists_encode_iff]
    constructor
    · rintro ⟨w, h⟩
      obtain ⟨bits, hf, h⟩ := bind_eq_ok_iff.mp h
      obtain ⟨rest, hfs, -⟩ := bind_eq_ok_iff.mp h
      exact ⟨⟨bits, hf⟩, rest, hfs⟩
    · rintro ⟨⟨bits, hf⟩, rest, hfs⟩
      exact ⟨_, bind_eq_ok_iff.mpr ⟨bits, hf, bind_eq_ok_iff.mpr ⟨rest, hfs, rfl⟩⟩⟩

theorem Descriptor.exists_encodeFlags_iff {d : Descriptor} {u : Bool} :
    (∃ w, d.encodeFlags u = .ok w) ↔ (u → d.flagBit.isSome) := by
  unfold encodeFlags
  cases u <;> cases d.flagBit <;> simp

/-- An instruction encodes exactly if it is of the table, its operands are as many
as there should be and each fits its fields, and it updates the flags only if it
can. -/
theorem exists_encode_iff {i : Instr} :
    (∃ w, encode i = .ok w) ↔
      ∃ d, Descriptor.ofMnemonic? i.mnemonic = some d ∧ i.operands.length = d.arity ∧
        (∀ f ∈ d.fields, f.Accepts (i.operands.getD f.operand (.value 0))) ∧
        (i.updateFlags → d.flagBit.isSome) := by
  simp only [encode_eq_ok_iff]
  constructor
  · rintro ⟨w, d, hd, hlen, fields, flags, hfields, hflags, -⟩
    exact ⟨d, hd, hlen, exists_encodeFields_iff.mp ⟨fields, hfields⟩,
      Descriptor.exists_encodeFlags_iff.mp ⟨flags, hflags⟩⟩
  · rintro ⟨d, hd, hlen, hfields, hflags⟩
    obtain ⟨fields, hfields⟩ := exists_encodeFields_iff.mpr hfields
    obtain ⟨flags, hflags⟩ := Descriptor.exists_encodeFlags_iff.mpr hflags
    exact ⟨_, d, hd, hlen, fields, flags, hfields, hflags, rfl⟩

/-- What encoding says of the operands, if the fields are known. -/
theorem accepts_of_encode {i : Instr} {w : Word} {fields : List Field} (h : encode i = .ok w)
    (hfields : (Descriptor.ofMnemonic? i.mnemonic).map (·.fields) = some fields) :
    i.operands.length = fields.foldl (fun n f => max n (f.operand + 1)) 0 ∧
      ∀ f ∈ fields, f.Accepts (i.operands.getD f.operand (.value 0)) := by
  obtain ⟨d, hd, hlen, haccepts, -⟩ := exists_encode_iff.mp ⟨w, h⟩
  rw [hd] at hfields
  cases hfields
  exact ⟨hlen, haccepts⟩

/-- An instruction that leaves the flags alone encodes if its fields take its operands. -/
theorem exists_encode_of_accepts {i : Instr} {fields : List Field}
    (hfields : (Descriptor.ofMnemonic? i.mnemonic).map (·.fields) = some fields)
    (hlen : i.operands.length = fields.foldl (fun n f => max n (f.operand + 1)) 0)
    (haccepts : ∀ f ∈ fields, f.Accepts (i.operands.getD f.operand (.value 0))) (hflags : i.updateFlags = false) :
    ∃ w, encode i = .ok w := by
  obtain ⟨d, hd, rfl⟩ := Option.map_eq_some_iff.mp hfields
  exact exists_encode_iff.mpr ⟨d, hd, hlen, haccepts, by simp [hflags]⟩

end PulseAsm
