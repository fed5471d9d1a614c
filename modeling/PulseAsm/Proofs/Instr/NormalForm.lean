import PulseAsm.Proofs.Instr.Decoding
import PulseAsm.Proofs.Instr.Operands

/-!
# Normal forms of words

Decoding reads only some of the bits of a word: the opcode, the fields, of which
the first counts if an operand has two, and the flag-update bit. Encoding the
instruction again gives the word in its normal form (`normalForm`), which agrees
with it on the bits that are read and has the forced bits of the descriptor
everywhere else. So the words of instructions are exactly the words that decode
and are in normal form.

A word is determined by what it holds in the parts of a descriptor
(`Descriptor.word_ext`), and all that follows is a comparison of these parts.
-/

namespace PulseAsm

/-! ### Definitions -/

/-- The bits of a word that a descriptor gives a meaning: those of the opcode, of
the fields, and the flag-update bit. -/
def Descriptor.keptMask (d : Descriptor) : Word :=
  (0xFF : Word) <<< opcodeShift ||| d.flagMask ||| d.fields.foldr (fun f m => f.place f.mask ||| m) 0

/-- The word with other bits in a field. -/
def Field.overwrite (f : Field) (bits : ℕ) (w : Word) : Word := w &&& ~~~f.place f.mask ||| f.place bits

/-- The word with the forced bits of a descriptor wherever a bit has no meaning. -/
def Descriptor.fill (d : Descriptor) (w : Word) : Word := w &&& d.keptMask ||| d.forced &&& ~~~d.keptMask

/-- The normal form of a word of a descriptor: bits without a meaning are forced, and
the second copy of the register of a `loopnz` is as the first. -/
def Descriptor.normalize (d : Descriptor) (w : Word) : Word :=
  if d.mnemonic = "loopnz" then (Field.reg 1 36).overwrite ((Field.reg 1 41).extract w) (d.fill w) else d.fill w

/-- The normal form of a word; a word whose opcode is unknown has no other form. -/
def normalForm (w : Word) : Word :=
  match Descriptor.ofOpcode? (opcodeOf w) with
  | some d => d.normalize w
  | none => w

/-! ### The parts of a word -/

/-- Two words with the same opcode agree in the top byte. -/
theorem getLsbD_of_opcodeOf_eq {w w' : Word} (h : opcodeOf w = opcodeOf w') {b : ℕ} (hb : opcodeShift ≤ b) :
    w.getLsbD b = w'.getLsbD b := by
  have hbit : ∀ w : Word, (opcodeOf w).testBit (b - opcodeShift) = w.getLsbD b := by
    intro w
    unfold opcodeOf
    rw [BitVec.testBit_toNat, BitVec.getLsbD_ushiftRight, Nat.add_sub_cancel' hb]
  rw [← hbit w, ← hbit w', h]

theorem opcodeOf_congr {w w' : Word} (h : ∀ b, opcodeShift ≤ b → w.getLsbD b = w'.getLsbD b) :
    opcodeOf w = opcodeOf w' := by
  apply Nat.eq_of_testBit_eq
  intro j
  unfold opcodeOf
  rw [BitVec.testBit_toNat, BitVec.testBit_toNat, BitVec.getLsbD_ushiftRight, BitVec.getLsbD_ushiftRight]
  exact h _ (Nat.le_add_right _ _)

namespace Field

variable {f : Field} {w w' : Word} {b : ℕ}

theorem extract_congr (h : ∀ b, f.Covers b → w.getLsbD b = w'.getLsbD b) : f.extract w = f.extract w' := by
  apply Nat.eq_of_testBit_eq
  intro j
  rw [testBit_extract, testBit_extract]
  by_cases hj : j < f.width
  · rw [h (f.offset + j) ⟨by omega, by omega⟩]
  · simp [hj]

/-- Two words that hold the same in a field agree on its bits. -/
theorem getLsbD_of_extract_eq (h : f.extract w = f.extract w') (hb : f.Covers b) : w.getLsbD b = w'.getLsbD b := by
  have hbit : ∀ w : Word, (f.extract w).testBit (b - f.offset) = w.getLsbD b := by
    intro w
    have hin : b - f.offset < f.width := by have := hb.1; have := hb.2; omega
    rw [testBit_extract, Nat.add_sub_cancel' hb.1]
    simp [hin]
  rw [← hbit w, ← hbit w', h]

theorem extract_lt (f : Field) (w : Word) : f.extract w < 2 ^ f.width := by
  unfold extract
  rw [Nat.one_shiftLeft]
  exact Nat.mod_lt _ (Nat.two_pow_pos _)

theorem getLsbD_place_mask (hb : b < 64) : (f.place f.mask).getLsbD b = decide (f.Covers b) := by
  by_cases h : f.Covers b
  · rw [getLsbD_place_of_covers _ h hb, mask_eq, Nat.testBit_two_pow_sub_one]
    have hin : b - f.offset < f.width := by have := h.1; have := h.2; omega
    simp [h, hin]
  · have hmask : f.mask < 2 ^ f.width := by have := Nat.two_pow_pos f.width; rw [mask_eq]; omega
    rw [getLsbD_place_of_not_covers hmask h]
    simp [h]

/-- A field that is overwritten holds the new bits. -/
theorem extract_overwrite {bits : ℕ} (hbits : bits < 2 ^ f.width) (hle : f.offset + f.width ≤ 64) :
    f.extract (f.overwrite bits w) = bits := by
  refine extract_eq hbits fun b hb => ?_
  have hb64 : b < 64 := by have := hb.2; omega
  rw [overwrite, BitVec.getLsbD_or, BitVec.getLsbD_and, BitVec.getLsbD_not, getLsbD_place_mask hb64,
    getLsbD_place_of_covers bits hb hb64]
  simp [hb]

/-- Overwriting a field leaves the other bits alone. -/
theorem getLsbD_overwrite {bits : ℕ} (hbits : bits < 2 ^ f.width) (hb : ¬ f.Covers b) (hb64 : b < 64) :
    (f.overwrite bits w).getLsbD b = w.getLsbD b := by
  rw [overwrite, BitVec.getLsbD_or, BitVec.getLsbD_and, BitVec.getLsbD_not, getLsbD_place_mask hb64,
    getLsbD_place_of_not_covers hbits hb]
  simp [hb, hb64]

end Field

namespace Descriptor

variable {d : Descriptor} {w w' : Word} {b : ℕ}

theorem getLsbD_keptMask (hb : b < 64) :
    d.keptMask.getLsbD b = decide (opcodeShift ≤ b ∨ d.flagBit = some b ∨ ∃ f ∈ d.fields, f.Covers b) := by
  have htop : ((0xFF : Word) <<< opcodeShift).getLsbD b = decide (opcodeShift ≤ b) := by
    revert b
    decide
  have hfields : ∀ fs : List Field, (fs.foldr (fun f m => f.place f.mask ||| m) (0 : Word)).getLsbD b =
      decide (∃ f ∈ fs, f.Covers b) := by
    intro fs
    induction fs with
    | nil => simp
    | cons f fs ih =>
      rw [List.foldr_cons, BitVec.getLsbD_or, ih, Field.getLsbD_place_mask hb]
      simp
  rw [keptMask, BitVec.getLsbD_or, BitVec.getLsbD_or, htop, hfields, d.getLsbD_flagMask hb]
  simp [Bool.or_assoc]

theorem getLsbD_fill (hb : b < 64) :
    (d.fill w).getLsbD b =
      if opcodeShift ≤ b ∨ d.flagBit = some b ∨ ∃ f ∈ d.fields, f.Covers b then w.getLsbD b
      else d.forced.getLsbD b := by
  rw [fill, BitVec.getLsbD_or, BitVec.getLsbD_and, BitVec.getLsbD_and, BitVec.getLsbD_not, getLsbD_keptMask hb]
  split
  · rename_i h
    simp only [h, decide_true, Bool.and_true, Bool.not_true, Bool.and_false, Bool.or_false]
  · rename_i h
    simp only [h, decide_false, Bool.and_false, Bool.not_false, Bool.and_true, Bool.false_or, hb, decide_true]

/-- A word is determined by its opcode, what it holds in the fields of a descriptor,
the flag-update bit, and the bits that are none of these. -/
theorem word_ext (d : Descriptor) (hopcode : opcodeOf w = opcodeOf w')
    (hfields : ∀ f ∈ d.fields, f.extract w = f.extract w') (hflags : d.decodeFlags w = d.decodeFlags w')
    (hrest : ∀ b < opcodeShift, d.flagBit ≠ some b → (∀ f ∈ d.fields, ¬ f.Covers b) → w.getLsbD b = w'.getLsbD b) :
    w = w' := by
  apply BitVec.eq_of_getLsbD_eq
  intro b _
  by_cases htop : opcodeShift ≤ b
  · exact getLsbD_of_opcodeOf_eq hopcode htop
  by_cases hflag : d.flagBit = some b
  · simpa only [decodeFlags, hflag] using hflags
  by_cases hcov : ∃ f ∈ d.fields, f.Covers b
  · obtain ⟨f, hf, hb⟩ := hcov
    exact Field.getLsbD_of_extract_eq (hfields f hf) hb
  · exact hrest b (Nat.lt_of_not_le htop) hflag fun f hf hb => hcov ⟨f, hf, hb⟩

end Descriptor

/-! ### Normal forms by their parts -/

/-- An operand has one field, except for the register of a `loopnz`. -/
theorem table_fields_distinct :
    ∀ d ∈ table, d.mnemonic ≠ "loopnz" → d.fields.Pairwise (·.operand ≠ ·.operand) := by decide

theorem table_fields_loopnz :
    ∀ d ∈ table, d.mnemonic = "loopnz" → d.fields = [.page 0, .reg 1 41, .reg 1 36, .addr 2] := by decide

namespace Descriptor

variable {d : Descriptor} (hd : d ∈ table) {w : Word}
include hd

/-- A bit outside the fields is kept if it has a meaning, and forced otherwise. -/
theorem getLsbD_normalize {b : ℕ} (hb : b < 64) (hcov : ∀ f ∈ d.fields, ¬ f.Covers b) :
    (d.normalize w).getLsbD b =
      if opcodeShift ≤ b ∨ d.flagBit = some b then w.getLsbD b else d.forced.getLsbD b := by
  have hnone : ¬ ∃ f ∈ d.fields, f.Covers b := fun ⟨f, hf, h⟩ => hcov f hf h
  have hfill : (d.fill w).getLsbD b =
      if opcodeShift ≤ b ∨ d.flagBit = some b then w.getLsbD b else d.forced.getLsbD b := by
    rw [getLsbD_fill hb]
    simp only [hnone, or_false]
  unfold normalize
  by_cases hm : d.mnemonic = "loopnz"
  · have hcopy : ¬ (Field.reg 1 36).Covers b := hcov _ (by rw [table_fields_loopnz d hd hm]; simp)
    have hlt : (Field.reg 1 41).extract w < 2 ^ (Field.reg 1 36).width := Field.extract_lt _ w
    rw [if_pos hm, Field.getLsbD_overwrite hlt hcopy hb, hfill]
  · rw [if_neg hm, hfill]

theorem opcodeOf_normalize : opcodeOf (d.normalize w) = opcodeOf w := by
  apply opcodeOf_congr
  intro b hb
  by_cases hb64 : b < 64
  · rw [getLsbD_normalize hd hb64, if_pos (Or.inl hb)]
    exact fun f hf hc => Nat.not_lt_of_le hb ((wellFormed_of_mem_table d hd).lt_of_covers hf hc)
  · rw [BitVec.getLsbD_of_ge _ _ (by omega), BitVec.getLsbD_of_ge _ _ (by omega)]

theorem decodeFlags_normalize : d.decodeFlags (d.normalize w) = d.decodeFlags w := by
  unfold decodeFlags
  cases hbit : d.flagBit with
  | none => rfl
  | some b =>
    have wf := wellFormed_of_mem_table d hd
    have hlt := wf.flag_lt b hbit
    simp only
    rw [getLsbD_normalize hd (Nat.lt_trans hlt (by decide)) (wf.flag_apart b hbit).2, if_pos (Or.inr hbit)]

/-- A field of a normal form holds what the first field of its operand holds in the word. -/
theorem extract_normalize {f g : Field} (hf : f ∈ d.fields) (hg : d.fieldFor? f.operand = some g) :
    f.extract (d.normalize w) = g.extract w := by
  have hlt : ∀ b, f.Covers b → b < 64 := fun b hb =>
    Nat.lt_trans ((wellFormed_of_mem_table d hd).lt_of_covers hf hb) (by decide)
  have hfill : f.extract (d.fill w) = f.extract w := by
    refine Field.extract_congr fun b hb => ?_
    rw [getLsbD_fill (hlt b hb), if_pos (Or.inr (Or.inr ⟨f, hf, hb⟩))]
  unfold normalize
  by_cases hm : d.mnemonic = "loopnz"
  · rw [if_pos hm]
    have hfields := table_fields_loopnz d hd hm
    have hbits : (Field.reg 1 41).extract w < 2 ^ (Field.reg 1 36).width := Field.extract_lt _ w
    by_cases hcopy : f = .reg 1 36
    · subst hcopy
      have hfirst : g = .reg 1 41 := by
        rw [fieldFor?, hfields] at hg
        exact (Option.some.inj hg).symm
      rw [Field.extract_overwrite hbits (by decide), hfirst]
    · -- the other fields lie apart from the second copy, and each is the first of its operand
      have hothers : ∀ f ∈ [Field.page 0, .reg 1 41, .reg 1 36, .addr 2], f ≠ .reg 1 36 →
          f.Apart (.reg 1 36) ∧
            [Field.page 0, .reg 1 41, .reg 1 36, .addr 2].find? (·.operand = f.operand) = some f := by decide
      obtain ⟨hapart, hself⟩ := hothers f (hfields ▸ hf) hcopy
      rw [fieldFor?, hfields, hself] at hg
      cases hg
      rw [← hfill]
      exact Field.extract_congr fun b hb => Field.getLsbD_overwrite hbits (hapart.not_covers hb) (hlt b hb)
  · have hself : d.fieldFor? f.operand = some f := find?_eq_self (table_fields_distinct d hd hm) hf
    rw [hself] at hg
    cases hg
    rw [if_neg hm, hfill]

end Descriptor

/-! ### Encoding what was decoded -/

/-- What a field reads is written back as it was, also to another field of the
same kind. -/
theorem Field.encode_of_decode {mnemonic : String} {f g : Field} {w : Word} {o : Operand}
    (h : f.decode mnemonic w = .ok o) (hf : f.width = f.kind.width) (hg : g.width = g.kind.width)
    (hkind : g.kind = f.kind) : g.encode mnemonic o = .ok (f.extract w) := by
  have hlt := f.extract_lt w
  unfold Field.decode at h
  cases hk : f.kind with
  | op space =>
    simp only [hk] at h
    cases hcode : Operator.ofCode? space (f.extract w) with
    | none => simp [hcode] at h
    | some op =>
      simp only [hcode] at h
      cases h
      obtain ⟨hspace, hcode⟩ := Operator.ofCode?_eq_some hcode
      simp only [Field.encode, hkind, hk, hspace, if_true, hcode]
  | imm =>
    simp only [hk] at h
    cases h
    rw [hf, hk] at hlt
    simp only [FieldKind.width, immWidth] at hlt
    simp only [Field.encode, hkind, hk, foldImm_eq_ok_iff]
    rw [foldedImm_of_nonneg (by omega)]
    omega
  | _ =>
    simp only [hk] at h
    cases h
    have hle : f.extract w ≤ g.mask := by rw [mask_eq, hg, hkind, ← hf]; omega
    simp only [Field.encode, hkind, hk]
    rw [if_pos ⟨by omega, by omega⟩, Int.toNat_natCast]

/-- The word of an instruction by its parts: the opcode, the bits of the operands in
their fields, the flag-update bit, and the forced bits. -/
theorem encode_eq_ok_iff_parts {i : Instr} {w : Word} :
    encode i = .ok w ↔ ∃ d ∈ table, d.mnemonic = i.mnemonic ∧ i.operands.length = d.arity ∧
      opcodeOf w = d.opcode ∧
      (∀ f ∈ d.fields, f.encode d.mnemonic (i.operands.getD f.operand (.value 0)) = .ok (f.extract w)) ∧
      d.decodeFlags w = i.updateFlags ∧
      ∀ b < opcodeShift, d.flagBit ≠ some b → (∀ f ∈ d.fields, ¬ f.Covers b) →
        w.getLsbD b = d.forced.getLsbD b := by
  have hrest : ∀ {d : Descriptor} {fields flags : Word}, d ∈ table →
      encodeFields d.mnemonic i.operands d.fields = .ok fields → d.encodeFlags i.updateFlags = .ok flags →
      ∀ b < opcodeShift, d.flagBit ≠ some b → (∀ f ∈ d.fields, ¬ f.Covers b) →
        (d.base ||| fields ||| flags).getLsbD b = d.forced.getLsbD b := by
    intro d fields flags hd hfields hflags b hb hflag hcov
    rw [BitVec.getLsbD_or, BitVec.getLsbD_or, d.getLsbD_base hb,
      encodeFields_outside (wellFormed_of_mem_table d hd).width hfields hcov,
      Descriptor.getLsbD_encodeFlags hflags (Nat.lt_trans hb (by decide))]
    simp [hflag]
  constructor
  · intro h
    obtain ⟨d, hd, hlen, fields, flags, hfields, hflags, rfl⟩ := encode_eq_ok_iff.mp h
    obtain ⟨hmem, hmnemonic⟩ := Descriptor.ofMnemonic?_eq_some_iff.mp hd
    have wf := wellFormed_of_mem_table d hmem
    exact ⟨d, hmem, hmnemonic, hlen, wf.opcodeOf_word hfields hflags, fun f hf => wf.extract_word hfields hflags hf,
      wf.decodeFlags_word hfields hflags, hrest hmem hfields hflags⟩
  · rintro ⟨d, hmem, hmnemonic, hlen, hopcode, hback, hflag, hforced⟩
    have wf := wellFormed_of_mem_table d hmem
    obtain ⟨fields, hfields⟩ := exists_encodeFields_iff.mpr fun f hf =>
      Field.exists_encode_iff.mp ⟨_, hback f hf⟩
    obtain ⟨flags, hflags⟩ : ∃ flags, d.encodeFlags i.updateFlags = .ok flags := by
      refine Descriptor.exists_encodeFlags_iff.mpr fun hu => ?_
      rw [hu] at hflag
      unfold Descriptor.decodeFlags at hflag
      cases hbit : d.flagBit with
      | none => simp [hbit] at hflag
      | some b => rfl
    refine encode_eq_ok_iff.mpr ⟨d, Descriptor.ofMnemonic?_eq_some_iff.mpr ⟨hmem, hmnemonic⟩, hlen, fields, flags,
      hfields, hflags, ?_⟩
    refine d.word_ext ?_ (fun f hf => ?_) ?_ fun b hb hbit hcov => ?_
    · rw [wf.opcodeOf_word hfields hflags, hopcode]
    · have hword := wf.extract_word hfields hflags hf
      rw [hback f hf] at hword
      exact (Except.ok.inj hword).symm
    · rw [wf.decodeFlags_word hfields hflags, hflag]
    · rw [hrest hmem hfields hflags b hb hbit hcov, hforced b hb hbit hcov]

theorem Descriptor.getLsbD_normalize_rest {d : Descriptor} (hd : d ∈ table) {w : Word} {b : ℕ}
    (hb : b < opcodeShift) (hflag : d.flagBit ≠ some b) (hcov : ∀ f ∈ d.fields, ¬ f.Covers b) :
    (d.normalize w).getLsbD b = d.forced.getLsbD b := by
  rw [getLsbD_normalize hd (Nat.lt_trans hb (by decide)) hcov, if_neg]
  rintro (h | h)
  · omega
  · exact hflag h

theorem normalForm_eq_normalize {d : Descriptor} {w : Word} (hd : d ∈ table) (hopcode : d.opcode = opcodeOf w) :
    normalForm w = d.normalize w := by
  simp only [normalForm, Descriptor.ofOpcode?_eq_some_iff.mpr ⟨hd, hopcode⟩]

/-- Encoding a decoded instruction gives the normal form of its word. -/
theorem encode_of_decode {w : Word} {i : Instr} (h : decode w = .ok i) : encode i = .ok (normalForm w) := by
  obtain ⟨d, hd, hopcode, hmnemonic, hflags, hops⟩ := decode_eq_ok_iff.mp h
  have wf := wellFormed_of_mem_table d hd
  have hlen := Descriptor.length_of_decodeOperands hops
  rw [normalForm_eq_normalize hd hopcode]
  refine encode_eq_ok_iff_parts.mpr ⟨d, hd, hmnemonic.symm, hlen, ?_, fun f hf => ?_, ?_, fun b hb hflag hcov => ?_⟩
  · rw [Descriptor.opcodeOf_normalize hd, hopcode]
  · -- each field takes back what the first field of its operand holds
    obtain ⟨g, hg⟩ := Descriptor.exists_fieldFor? hf
    obtain ⟨hgmem, hoperand⟩ := Descriptor.mem_fields_of_fieldFor? hg
    have hread := Descriptor.decodeOperand_of_decodeOperands hops (table_operand_lt_arity d hd f hf)
    rw [Descriptor.decodeOperand_of_fieldFor? hg] at hread
    rw [Descriptor.extract_normalize hd hf hg]
    exact Field.encode_of_decode hread (wf.width g hgmem) (wf.width f hf) (wf.kind f hf g hgmem hoperand.symm)
  · rw [Descriptor.decodeFlags_normalize hd, hflags]
  · exact Descriptor.getLsbD_normalize_rest hd hb hflag hcov

/-- Fields that differ in their place only write an operand alike. -/
theorem Field.encode_congr {mnemonic : String} {f g : Field} (hoperand : f.operand = g.operand)
    (hwidth : f.width = g.width) (hkind : f.kind = g.kind) (o : Operand) :
    f.encode mnemonic o = g.encode mnemonic o := by
  have hmask : f.mask = g.mask := by rw [mask, mask, hwidth]
  cases o <;> simp only [Field.encode, Field.name, hoperand, hkind, hmask]

/-- The word of an instruction is in normal form. -/
theorem normalForm_of_encode {i : Instr} {w : Word} (h : encode i = .ok w) : normalForm w = w := by
  obtain ⟨d, hd, -, -, hopcode, hback, -, hforced⟩ := encode_eq_ok_iff_parts.mp h
  have wf := wellFormed_of_mem_table d hd
  rw [normalForm_eq_normalize hd hopcode.symm]
  refine d.word_ext (Descriptor.opcodeOf_normalize hd) (fun f hf => ?_) (Descriptor.decodeFlags_normalize hd)
    fun b hb hflag hcov => ?_
  · obtain ⟨g, hg⟩ := Descriptor.exists_fieldFor? hf
    obtain ⟨hgmem, hoperand⟩ := Descriptor.mem_fields_of_fieldFor? hg
    have hkind := wf.kind g hgmem f hf hoperand
    have hwidth : g.width = f.width := by rw [wf.width g hgmem, wf.width f hf, hkind]
    have hsame := hback g hgmem
    rw [Field.encode_congr hoperand hwidth hkind, hoperand, hback f hf] at hsame
    rw [Descriptor.extract_normalize hd hf hg]
    exact (Except.ok.inj hsame).symm
  · rw [Descriptor.getLsbD_normalize_rest hd hb hflag hcov, hforced b hb hflag hcov]

/-- A word decodes as its normal form does. -/
theorem decode_normalForm (w : Word) : decode (normalForm w) = decode w := by
  cases hd : Descriptor.ofOpcode? (opcodeOf w) with
  | none => simp only [normalForm, hd]
  | some d =>
    obtain ⟨hmem, hopcode⟩ := Descriptor.ofOpcode?_eq_some_iff.mp hd
    have hoperand : d.decodeOperand (d.normalize w) = d.decodeOperand w := by
      funext k
      cases hf : d.fieldFor? k with
      | none => simp only [Descriptor.decodeOperand, hf]
      | some f =>
        obtain ⟨hfmem, rfl⟩ := Descriptor.mem_fields_of_fieldFor? hf
        simp only [Descriptor.decodeOperand, hf, Field.decode, Descriptor.extract_normalize hmem hfmem hf]
    rw [normalForm_eq_normalize hmem hopcode]
    simp only [decode, Descriptor.opcodeOf_normalize hmem, hd, hoperand, Descriptor.decodeFlags_normalize hmem]

theorem normalForm_normalForm (w : Word) : normalForm (normalForm w) = normalForm w := by
  cases hd : Descriptor.ofOpcode? (opcodeOf w) with
  | none => simp only [normalForm, hd]
  | some d =>
    obtain ⟨hmem, hopcode⟩ := Descriptor.ofOpcode?_eq_some_iff.mp hd
    have hopcode' := Descriptor.opcodeOf_normalize hmem (w := w)
    rw [normalForm_eq_normalize hmem hopcode, normalForm_eq_normalize hmem (hopcode.trans hopcode'.symm)]
    refine d.word_ext (Descriptor.opcodeOf_normalize hmem) (fun f hf => ?_) (Descriptor.decodeFlags_normalize hmem)
      fun b hb hflag hcov => ?_
    · obtain ⟨g, hg⟩ := Descriptor.exists_fieldFor? hf
      obtain ⟨hgmem, hoperand⟩ := Descriptor.mem_fields_of_fieldFor? hg
      rw [Descriptor.extract_normalize hmem hf hg, Descriptor.extract_normalize hmem hf hg,
        Descriptor.extract_normalize hmem hgmem (by rw [hoperand, hg])]
    · rw [Descriptor.getLsbD_normalize_rest hmem hb hflag hcov, Descriptor.getLsbD_normalize_rest hmem hb hflag hcov]

/-- **Encoding undoes decoding up to the normal form**: a word does not decode exactly
if its opcode is unknown or an operator field holds an undefined code. Otherwise its
instruction encodes to its normal form. A word and its normal form decode alike, the
normal form is its own, and the words of instructions are exactly those that decode
and are in normal form. -/
theorem encode_undoes_decode (w : Word) :
    (∀ e, decode w = .error e ↔
      (∀ d ∈ table, d.opcode ≠ opcodeOf w) ∧ e = .unknownOpcode (opcodeOf w) ∨
      ∃ d ∈ table, d.opcode = opcodeOf w ∧ ∃ f ∈ d.fields, ∃ space, f.kind = .op space ∧
        (∀ o : Operator, o.space = space → o.code ≠ f.extract w) ∧
        e = .outOfRange (f.name d.mnemonic) (f.extract w) "a defined operator code") ∧
    (∀ i, decode w = .ok i → encode i = .ok (normalForm w)) ∧
    decode (normalForm w) = decode w ∧ normalForm (normalForm w) = normalForm w ∧
    ((∃ i, encode i = .ok w) ↔ (∃ i, decode w = .ok i) ∧ normalForm w = w) := by
  refine ⟨fun e => decode_eq_error_iff, fun i => encode_of_decode, decode_normalForm w, normalForm_normalForm w, ?_⟩
  constructor
  · rintro ⟨i, h⟩
    exact ⟨⟨i.folded, decode_of_encode h⟩, normalForm_of_encode h⟩
  · rintro ⟨⟨i, h⟩, hw⟩
    exact ⟨i, hw ▸ encode_of_decode h⟩

/-- A `loopnz` whose registers disagree, without its forced bit and with a stray bit:
it decodes, but is no instruction's word; its normal form is. -/
theorem encode_undoes_decode_loopnz :
    decode 0x30400A9000100003 = .ok ⟨"loopnz", [.value 2, .value 5, .value 3], false⟩ ∧
      encode ⟨"loopnz", [.value 2, .value 5, .value 3], false⟩ = .ok 0x30420A5000000003 ∧
      decode 0x30420A5000000003 = decode 0x30400A9000100003 ∧ ¬ ∃ i, encode i = .ok 0x30400A9000100003 := by
  have h : decode 0x30400A9000100003 = .ok ⟨"loopnz", [.value 2, .value 5, .value 3], false⟩ := by rfl
  have hnormal : normalForm 0x30400A9000100003 = 0x30420A5000000003 := by decide
  obtain ⟨-, hencode, hdecode, -, hiff⟩ := encode_undoes_decode 0x30400A9000100003
  rw [hnormal] at hencode hdecode hiff
  exact ⟨h, hencode _ h, hdecode, fun hi => absurd (hiff.mp hi).2 (by decide)⟩

end PulseAsm
