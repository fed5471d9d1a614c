import PulseAsm.Instr.Decoding
import PulseAsm.Instr.Encoding
import PulseAsm.Proofs.Instr.Immediate
import PulseAsm.Proofs.Keys
import PulseAsm.Proofs.Outcome

/-!
# The layout of instruction words

What makes the instruction table fit for packing and unpacking: within a
descriptor no two fields share a bit, nor does a field share one with the opcode,
the forced bits or the flag-update bit (`Descriptor.WellFormed`). That every
descriptor of the table is laid out so is decided once; all else is proved from
these conditions, bit by bit, for any well-formed descriptor.

The main statements are that a word packed from fields that lie apart gives back
the bits of each field (`Descriptor.WellFormed.extract_word`), and likewise the
opcode and the flag-update bit.
-/

namespace PulseAsm

/-! ### Fields -/

/-- The bits that a field of a kind takes. -/
def FieldKind.width : FieldKind → ℕ
  | .page | .channel => 3
  | .reg => 5
  | .op _ => 4
  | .imm => immWidth
  | .addr => addrWidth
  | .flag => 1

namespace Field

/-- Bit `b` of a word lies in the field. -/
def Covers (f : Field) (b : ℕ) : Prop := f.offset ≤ b ∧ b < f.offset + f.width

instance (f : Field) (b : ℕ) : Decidable (f.Covers b) := inferInstanceAs (Decidable (_ ∧ _))

/-- No bit lies in both fields. -/
def Apart (f g : Field) : Prop := f.offset + f.width ≤ g.offset ∨ g.offset + g.width ≤ f.offset

instance (f g : Field) : Decidable (f.Apart g) := inferInstanceAs (Decidable (_ ∨ _))

theorem Apart.not_covers {f g : Field} {b : ℕ} (h : f.Apart g) (hf : f.Covers b) : ¬ g.Covers b := by
  rintro ⟨h₁, h₂⟩
  obtain ⟨h₃, h₄⟩ := hf
  rcases h with h | h <;> omega

theorem Apart.symm {f g : Field} (h : f.Apart g) : g.Apart f := Or.symm h

theorem getLsbD_place (f : Field) (bits b : ℕ) :
    (f.place bits).getLsbD b =
      (decide (b < 64) && decide (f.offset ≤ b) && bits.testBit (b - f.offset)) := by
  unfold place
  rw [BitVec.getLsbD_shiftLeft, BitVec.getLsbD_ofNat]
  by_cases h₁ : b < 64 <;> by_cases h₂ : b < f.offset
  · simp [h₂, Nat.not_le_of_lt h₂]
  · have h₃ : b - f.offset < 64 := by omega
    simp [h₁, h₂, h₃, Nat.le_of_not_lt h₂]
  · simp [h₁]
  · simp [h₁]

/-- What is placed in a field shows in the bits of the field. -/
theorem getLsbD_place_of_covers {f : Field} {b : ℕ} (bits : ℕ) (h : f.Covers b) (hb : b < 64) :
    (f.place bits).getLsbD b = bits.testBit (b - f.offset) := by
  rw [getLsbD_place]
  simp [hb, h.1]

/-- What fits a field leaves the other bits alone. -/
theorem getLsbD_place_of_not_covers {f : Field} {bits b : ℕ} (hbits : bits < 2 ^ f.width)
    (h : ¬ f.Covers b) : (f.place bits).getLsbD b = false := by
  rw [getLsbD_place]
  by_cases hle : f.offset ≤ b
  · have hge : f.width ≤ b - f.offset := by
      by_contra hlt
      exact h ⟨hle, by omega⟩
    have hbit : bits.testBit (b - f.offset) = false :=
      Nat.testBit_lt_two_pow (Nat.lt_of_lt_of_le hbits (Nat.pow_le_pow_right (by decide) hge))
    simp [hbit]
  · simp [hle]

theorem mask_eq (f : Field) : f.mask = 2 ^ f.width - 1 := by rw [mask, Nat.one_shiftLeft]

theorem testBit_extract (f : Field) (w : Word) (j : ℕ) :
    (f.extract w).testBit j = (decide (j < f.width) && w.getLsbD (f.offset + j)) := by
  unfold extract
  rw [Nat.one_shiftLeft, Nat.testBit_mod_two_pow, BitVec.testBit_toNat, BitVec.getLsbD_ushiftRight]

/-- A field holds the number whose bits stand in it. -/
theorem extract_eq {f : Field} {w : Word} {bits : ℕ} (hbits : bits < 2 ^ f.width)
    (h : ∀ b, f.Covers b → w.getLsbD b = bits.testBit (b - f.offset)) : f.extract w = bits := by
  apply Nat.eq_of_testBit_eq
  intro j
  rw [testBit_extract]
  by_cases hj : j < f.width
  · rw [h (f.offset + j) ⟨by omega, by omega⟩]
    simp [hj]
  · have hbit : bits.testBit j = false :=
      Nat.testBit_lt_two_pow (Nat.lt_of_lt_of_le hbits (Nat.pow_le_pow_right (by decide) (by omega)))
    simp [hj, hbit]

end Field

/-! ### Descriptors -/

/-- A descriptor whose parts lie apart in the word: opcode, forced bits, the
flag-update bit and the fields. Every operand has a field, fields of one operand
are of one kind, and a field is as wide as its kind. -/
structure Descriptor.WellFormed (d : Descriptor) : Prop where
  opcode_lt : d.opcode < 2 ^ 8
  below : ∀ f ∈ d.fields, f.offset + f.width ≤ opcodeShift
  apart : d.fields.Pairwise Field.Apart
  width : ∀ f ∈ d.fields, f.width = f.kind.width
  kind : ∀ f ∈ d.fields, ∀ g ∈ d.fields, f.operand = g.operand → f.kind = g.kind
  carried : ∀ k < d.arity, (d.fieldFor? k).isSome
  forced_lt : d.forced.toNat < 2 ^ opcodeShift
  forced_apart : ∀ f ∈ d.fields, f.extract d.forced = 0
  flag_lt : ∀ b ∈ d.flagBit, b < opcodeShift
  flag_apart : ∀ b ∈ d.flagBit, d.forced.getLsbD b = false ∧ ∀ f ∈ d.fields, ¬ f.Covers b

instance (d : Descriptor) : Decidable d.WellFormed :=
  decidable_of_iff
    (d.opcode < 2 ^ 8 ∧ (∀ f ∈ d.fields, f.offset + f.width ≤ opcodeShift) ∧
      d.fields.Pairwise Field.Apart ∧ (∀ f ∈ d.fields, f.width = f.kind.width) ∧
      (∀ f ∈ d.fields, ∀ g ∈ d.fields, f.operand = g.operand → f.kind = g.kind) ∧
      (∀ k < d.arity, (d.fieldFor? k).isSome) ∧ d.forced.toNat < 2 ^ opcodeShift ∧
      (∀ f ∈ d.fields, f.extract d.forced = 0) ∧ (∀ b ∈ d.flagBit, b < opcodeShift) ∧
      ∀ b ∈ d.flagBit, d.forced.getLsbD b = false ∧ ∀ f ∈ d.fields, ¬ f.Covers b)
    ⟨fun ⟨h₁, h₂, h₃, h₄, h₅, h₆, h₇, h₈, h₉, h₁₀⟩ => ⟨h₁, h₂, h₃, h₄, h₅, h₆, h₇, h₈, h₉, h₁₀⟩,
      fun ⟨h₁, h₂, h₃, h₄, h₅, h₆, h₇, h₈, h₉, h₁₀⟩ => ⟨h₁, h₂, h₃, h₄, h₅, h₆, h₇, h₈, h₉, h₁₀⟩⟩

/-- Every instruction of the table is laid out well. -/
theorem wellFormed_of_mem_table : ∀ d ∈ table, d.WellFormed := by decide

/-- No two instructions of the table share an opcode. -/
theorem table_opcodes_distinct : table.Pairwise (·.opcode ≠ ·.opcode) := by decide

/-- No two instructions of the table share a mnemonic. -/
theorem table_mnemonics_distinct : table.Pairwise (·.mnemonic ≠ ·.mnemonic) := by decide

/-! ### Packing -/

theorem Operator.code_lt (o : Operator) : o.code < 2 ^ 4 := by
  cases o <;> decide

/-- The bits of an operand fit the field. -/
theorem Field.encode_lt {mnemonic : String} {f : Field} {o : Operand} {bits : ℕ}
    (hwidth : f.width = f.kind.width) (h : f.encode mnemonic o = .ok bits) : bits < 2 ^ f.width := by
  cases o with
  | label name => cases hk : f.kind <;> simp [Field.encode, hk] at h
  | op o =>
    cases hk : f.kind with
    | op space =>
      rw [hwidth, hk]
      simp only [Field.encode, hk] at h
      split at h
      · cases h
        exact o.code_lt
      · cases h
    | _ => simp [Field.encode, hk] at h
  | value v =>
    cases hk : f.kind with
    | op space => simp [Field.encode, hk] at h
    | imm =>
      rw [hwidth, hk]
      simp only [Field.encode, hk] at h
      obtain ⟨⟨h₁, h₂⟩, h₃⟩ := foldImm_eq_ok_iff.mp h
      unfold foldedImm at h₃
      simp only [FieldKind.width, immWidth]
      split at h₃ <;> omega
    | _ =>
      simp only [Field.encode, hk] at h
      split at h
      · cases h
        have hpos := Nat.two_pow_pos f.width
        simp only [Field.mask_eq] at *
        omega
      · cases h

section Packing

variable {mnemonic : String} {operands : List Operand} {fs : List Field} {w : Word}

/-- The fields leave all other bits zero. -/
theorem encodeFields_outside (hwidth : ∀ f ∈ fs, f.width = f.kind.width)
    (h : encodeFields mnemonic operands fs = .ok w) {b : ℕ} (hb : ∀ f ∈ fs, ¬ f.Covers b) :
    w.getLsbD b = false := by
  induction fs generalizing w with
  | nil =>
    cases h
    exact BitVec.getLsbD_zero
  | cons f fs ih =>
    obtain ⟨bits, hf, h⟩ := bind_eq_ok_iff.mp h
    obtain ⟨rest, hfs, h⟩ := bind_eq_ok_iff.mp h
    cases h
    simp only [List.forall_mem_cons] at hwidth hb
    rw [BitVec.getLsbD_or, ih hwidth.2 hfs hb.2,
      Field.getLsbD_place_of_not_covers (Field.encode_lt hwidth.1 hf) hb.1]
    rfl

/-- Each field shows the bits of its operand. -/
theorem encodeFields_inside (hapart : fs.Pairwise Field.Apart)
    (hwidth : ∀ f ∈ fs, f.width = f.kind.width) (hbelow : ∀ f ∈ fs, f.offset + f.width ≤ opcodeShift)
    (h : encodeFields mnemonic operands fs = .ok w) {f : Field} (hf : f ∈ fs) :
    ∃ bits, f.encode mnemonic (operands.getD f.operand (.value 0)) = .ok bits ∧
      ∀ b, f.Covers b → w.getLsbD b = bits.testBit (b - f.offset) := by
  induction fs generalizing w with
  | nil => cases hf
  | cons g fs ih =>
    obtain ⟨bits, hg, h⟩ := bind_eq_ok_iff.mp h
    obtain ⟨rest, hfs, h⟩ := bind_eq_ok_iff.mp h
    cases h
    rw [List.pairwise_cons] at hapart
    simp only [List.forall_mem_cons] at hwidth hbelow
    rcases List.mem_cons.mp hf with rfl | hf
    · -- the field itself: the later fields lie apart from it
      refine ⟨bits, hg, fun b hb => ?_⟩
      have hb64 : b < 64 := by have := hb.2; have := hbelow.1; simp only [opcodeShift] at this; omega
      rw [BitVec.getLsbD_or, Field.getLsbD_place_of_covers bits hb hb64,
        encodeFields_outside hwidth.2 hfs fun g' hg' => (hapart.1 g' hg').not_covers hb, Bool.or_false]
    · -- a later field: the first one lies apart from it
      obtain ⟨bits', hf', hbits'⟩ := ih hapart.2 hwidth.2 hbelow.2 hfs hf
      refine ⟨bits', hf', fun b hb => ?_⟩
      rw [BitVec.getLsbD_or, hbits' b hb, Field.getLsbD_place_of_not_covers (Field.encode_lt hwidth.1 hg)
        ((hapart.1 f hf).symm.not_covers hb), Bool.false_or]

end Packing

/-! ### Words -/

/-- The parts that the word of an instruction is put together from. -/
theorem encode_eq_ok_iff {i : Instr} {w : Word} :
    encode i = .ok w ↔ ∃ d, Descriptor.ofMnemonic? i.mnemonic = some d ∧ i.operands.length = d.arity ∧
      ∃ fields flags, encodeFields d.mnemonic i.operands d.fields = .ok fields ∧
        d.encodeFlags i.updateFlags = .ok flags ∧ d.base ||| fields ||| flags = w := by
  unfold encode
  cases hd : Descriptor.ofMnemonic? i.mnemonic with
  | none => simp
  | some d =>
    simp only [Option.some.injEq, exists_eq_left']
    by_cases hlen : i.operands.length = d.arity
    · rw [if_pos hlen, bind_eq_ok_iff]
      constructor
      · rintro ⟨fields, hfields, h⟩
        obtain ⟨flags, hflags, h⟩ := bind_eq_ok_iff.mp h
        exact ⟨hlen, fields, flags, hfields, hflags, Except.ok.inj h⟩
      · rintro ⟨-, fields, flags, hfields, hflags, rfl⟩
        exact ⟨fields, hfields, bind_eq_ok_iff.mpr ⟨flags, hflags, rfl⟩⟩
    · simp [hlen]

theorem Descriptor.getLsbD_flagMask (d : Descriptor) {b : ℕ} (hb : b < 64) :
    d.flagMask.getLsbD b = decide (d.flagBit = some b) := by
  unfold flagMask
  cases d.flagBit with
  | none => simp
  | some c =>
    show (BitVec.ofNat 64 (1 <<< c)).getLsbD b = _
    rw [BitVec.getLsbD_ofNat, Nat.one_shiftLeft, Nat.testBit_two_pow]
    simp [hb]

/-- The flag-update bit is set exactly if it is asked for. -/
theorem Descriptor.getLsbD_encodeFlags {d : Descriptor} {u : Bool} {flags : Word}
    (h : d.encodeFlags u = .ok flags) {b : ℕ} (hb : b < 64) :
    flags.getLsbD b = (u && decide (d.flagBit = some b)) := by
  unfold encodeFlags at h
  cases u with
  | false =>
    cases h
    simp
  | true =>
    cases hbit : d.flagBit with
    | none => simp [hbit] at h
    | some c =>
      simp only [hbit, if_true] at h
      cases h
      rw [d.getLsbD_flagMask hb, hbit, Bool.true_and]

/-- Below the opcode stand the forced bits. -/
theorem Descriptor.getLsbD_base (d : Descriptor) {b : ℕ} (hb : b < opcodeShift) :
    d.base.getLsbD b = d.forced.getLsbD b := by
  unfold base
  rw [BitVec.getLsbD_or, BitVec.getLsbD_shiftLeft]
  simp [hb]

namespace Descriptor.WellFormed

variable {d : Descriptor} (wf : d.WellFormed) {operands : List Operand} {u : Bool} {fields flags : Word}
include wf

/-- The fields end below the opcode. -/
theorem lt_of_covers {f : Field} (hf : f ∈ d.fields) {b : ℕ} (hb : f.Covers b) : b < opcodeShift :=
  Nat.lt_of_lt_of_le hb.2 (wf.below f hf)

/-- Nothing but the opcode reaches the top byte. -/
theorem opcodeOf_word (hfields : encodeFields d.mnemonic operands d.fields = .ok fields)
    (hflags : d.encodeFlags u = .ok flags) : opcodeOf (d.base ||| fields ||| flags) = d.opcode := by
  apply Nat.eq_of_testBit_eq
  intro j
  unfold opcodeOf
  rw [BitVec.testBit_toNat, BitVec.getLsbD_ushiftRight]
  by_cases hj : j < 8
  · have hforced : d.forced.getLsbD (opcodeShift + j) = false :=
      Nat.testBit_lt_two_pow (Nat.lt_of_lt_of_le wf.forced_lt (Nat.pow_le_pow_right (by decide) (by omega)))
    have hf : fields.getLsbD (opcodeShift + j) = false := by
      refine encodeFields_outside wf.width hfields fun f hf hc => ?_
      have := wf.lt_of_covers hf hc
      omega
    have hu : flags.getLsbD (opcodeShift + j) = false := by
      rw [getLsbD_encodeFlags hflags (by simp only [opcodeShift]; omega)]
      have : d.flagBit ≠ some (opcodeShift + j) := fun hb => by
        have := wf.flag_lt _ hb
        omega
      simp [this]
    have hlt : opcodeShift + j < 64 := by simp only [opcodeShift]; omega
    rw [BitVec.getLsbD_or, BitVec.getLsbD_or, hf, hu, base, BitVec.getLsbD_or, hforced,
      BitVec.getLsbD_shiftLeft, BitVec.getLsbD_ofNat, Nat.add_sub_cancel_left]
    simp [hlt, Nat.lt_trans hj (by decide : 8 < 64)]
  · have hbit : d.opcode.testBit j = false :=
      Nat.testBit_lt_two_pow (Nat.lt_of_lt_of_le wf.opcode_lt (Nat.pow_le_pow_right (by decide) (by omega)))
    rw [hbit, BitVec.getLsbD_of_ge _ _ (by simp only [opcodeShift]; omega)]

/-- Each field holds the bits of its operand. -/
theorem extract_word (hfields : encodeFields d.mnemonic operands d.fields = .ok fields)
    (hflags : d.encodeFlags u = .ok flags) {f : Field} (hf : f ∈ d.fields) :
    f.encode d.mnemonic (operands.getD f.operand (.value 0)) =
      .ok (f.extract (d.base ||| fields ||| flags)) := by
  obtain ⟨bits, hbits, hcov⟩ := encodeFields_inside wf.apart wf.width wf.below hfields hf
  have hextract : f.extract (d.base ||| fields ||| flags) = bits := by
    refine Field.extract_eq (Field.encode_lt (wf.width f hf) hbits) fun b hb => ?_
    have hlt := wf.lt_of_covers hf hb
    have hforced : d.forced.getLsbD b = false := by
      have := f.testBit_extract d.forced (b - f.offset)
      rw [wf.forced_apart f hf, Nat.zero_testBit, Nat.add_sub_cancel' hb.1] at this
      have hin : b - f.offset < f.width := by have := hb.1; have := hb.2; omega
      simpa [hin] using this.symm
    have hflag : d.flagBit ≠ some b := fun h => (wf.flag_apart b h).2 f hf hb
    rw [BitVec.getLsbD_or, BitVec.getLsbD_or, d.getLsbD_base hlt, hforced, hcov b hb,
      getLsbD_encodeFlags hflags (Nat.lt_trans hlt (by decide))]
    simp [hflag]
  rw [hextract, hbits]

/-- The word asks for the flags to be updated exactly if the instruction does. -/
theorem decodeFlags_word (hfields : encodeFields d.mnemonic operands d.fields = .ok fields)
    (hflags : d.encodeFlags u = .ok flags) : d.decodeFlags (d.base ||| fields ||| flags) = u := by
  unfold decodeFlags
  cases hbit : d.flagBit with
  | none =>
    cases u with
    | false => rfl
    | true => simp [encodeFlags, hbit] at hflags
  | some b =>
    obtain ⟨hforced, hcov⟩ := wf.flag_apart b hbit
    have hlt := wf.flag_lt b hbit
    simp only [BitVec.getLsbD_or]
    rw [d.getLsbD_base hlt, hforced, encodeFields_outside wf.width hfields hcov,
      getLsbD_encodeFlags hflags (Nat.lt_trans hlt (by decide)), hbit]
    simp

end Descriptor.WellFormed

end PulseAsm
