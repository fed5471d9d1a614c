import PulseAsm.Proofs.Instr.RoundTrip

/-!
# Words that decode

A word is refused for one of two reasons: no instruction has its opcode, or a field
that is to hold an operator holds a code that is not defined. No instruction has two
operators, so the error is determined by the word (`decode_eq_error_iff`). All other
words decode (`decode_eq_ok_iff`).
-/

namespace PulseAsm

/-! ### Operators -/

theorem Operator.ofCode?_eq_none_iff {space : OpSpace} {c : ℕ} :
    ofCode? space c = none ↔ ∀ o : Operator, o.space = space → o.code ≠ c := by
  unfold ofCode?
  rw [List.find?_eq_none]
  constructor
  · intro h o hspace hcode
    exact h o (by cases o <;> decide) (by simp [hspace, hcode])
  · intro h o _ ho
    obtain ⟨hspace, hcode⟩ := of_decide_eq_true ho
    exact h o hspace hcode

theorem Operator.ofCode?_eq_some {space : OpSpace} {c : ℕ} {o : Operator} (h : ofCode? space c = some o) :
    o.space = space ∧ o.code = c := by
  simpa using List.find?_some h

/-! ### Fields -/

/-- A field reads as no operand exactly if it is to hold an operator and its code is
not defined. -/
theorem Field.decode_eq_error_iff {mnemonic : String} {f : Field} {w : Word} {e : Error} :
    f.decode mnemonic w = .error e ↔
      ∃ space, f.kind = .op space ∧ (∀ o : Operator, o.space = space → o.code ≠ f.extract w) ∧
        e = .outOfRange (f.name mnemonic) (f.extract w) "a defined operator code" := by
  unfold Field.decode
  cases hk : f.kind with
  | op space =>
    cases hcode : Operator.ofCode? space (f.extract w) with
    | some o =>
      simp only [hcode, reduceCtorEq, false_iff]
      rintro ⟨space', hspace, hall, -⟩
      cases hspace
      obtain ⟨hspace, hcode⟩ := Operator.ofCode?_eq_some hcode
      exact hall o hspace hcode
    | none =>
      simp only [hcode, Except.error.injEq]
      constructor
      · rintro rfl
        exact ⟨space, rfl, Operator.ofCode?_eq_none_iff.mp hcode, rfl⟩
      · rintro ⟨_, -, -, rfl⟩
        rfl
  | _ => simp

/-- Whether a field is to hold an operator. -/
def FieldKind.isOp : FieldKind → Bool
  | .op _ => true
  | _ => false

/-- No instruction has two operators. -/
theorem table_operators_unique :
    ∀ d ∈ table, ∀ f ∈ d.fields, ∀ g ∈ d.fields, f.kind.isOp → g.kind.isOp → f = g := by decide

theorem table_operand_lt_arity : ∀ d ∈ table, ∀ f ∈ d.fields, f.operand < d.arity := by decide

theorem Field.isOp_of_decode_error {mnemonic : String} {f : Field} {w : Word} {e : Error}
    (h : f.decode mnemonic w = .error e) : f.kind.isOp := by
  obtain ⟨space, hk, -⟩ := Field.decode_eq_error_iff.mp h
  rw [hk]
  rfl

/-! ### Descriptors -/

namespace Descriptor

variable {d : Descriptor} {w : Word}

theorem ofOpcode?_eq_some_iff {c : ℕ} : ofOpcode? c = some d ↔ d ∈ table ∧ d.opcode = c := by
  constructor
  · intro h
    exact ⟨List.mem_of_find?_eq_some h, by simpa using List.find?_some h⟩
  · rintro ⟨hd, rfl⟩
    exact ofOpcode?_opcode hd

theorem ofMnemonic?_eq_some_iff {mnemonic : String} :
    ofMnemonic? mnemonic = some d ↔ d ∈ table ∧ d.mnemonic = mnemonic := by
  constructor
  · intro h
    exact ⟨mem_table_of_ofMnemonic? h, mnemonic_of_ofMnemonic? h⟩
  · rintro ⟨hd, rfl⟩
    exact find?_eq_self table_mnemonics_distinct hd

theorem ofOpcode?_eq_none_iff {c : ℕ} : ofOpcode? c = none ↔ ∀ d ∈ table, d.opcode ≠ c := by
  simp [ofOpcode?]

theorem mem_fields_of_fieldFor? {k : ℕ} {f : Field} (h : d.fieldFor? k = some f) :
    f ∈ d.fields ∧ f.operand = k :=
  ⟨List.mem_of_find?_eq_some h, by simpa using List.find?_some h⟩

theorem exists_fieldFor? {f : Field} (hf : f ∈ d.fields) : ∃ g, d.fieldFor? f.operand = some g :=
  Option.isSome_iff_exists.mp (List.find?_isSome.mpr ⟨f, hf, by simp⟩)

/-- An operator field is the only one of its operand. -/
theorem fieldFor?_of_isOp (hd : d ∈ table) {f : Field} (hf : f ∈ d.fields) (hop : f.kind.isOp) :
    d.fieldFor? f.operand = some f := by
  obtain ⟨g, hg⟩ := exists_fieldFor? hf
  obtain ⟨hgmem, hoperand⟩ := mem_fields_of_fieldFor? hg
  have hkind := (wellFormed_of_mem_table d hd).kind g hgmem f hf hoperand
  rw [hg, table_operators_unique d hd g hgmem f hf (by rw [hkind]; exact hop) hop]

theorem decodeOperand_of_fieldFor? {k : ℕ} {f : Field} (h : d.fieldFor? k = some f) :
    d.decodeOperand w k = f.decode d.mnemonic w := by
  simp only [decodeOperand, h]

/-- The operands cannot be read exactly if a field cannot, and there is only one
error that this can give. -/
theorem decodeOperands_eq_error_iff (hd : d ∈ table) {e : Error} :
    (List.range d.arity).mapM (d.decodeOperand w) = .error e ↔
      ∃ f ∈ d.fields, f.decode d.mnemonic w = .error e := by
  have hwalk : ∀ e, (List.range d.arity).mapM (d.decodeOperand w) = .error e →
      ∃ f ∈ d.fields, f.decode d.mnemonic w = .error e := by
    intro e h
    obtain ⟨k, -, hk⟩ := exists_of_mapM_error h
    cases hf : d.fieldFor? k with
    | none => simp [decodeOperand, hf] at hk
    | some f => exact ⟨f, (mem_fields_of_fieldFor? hf).1, decodeOperand_of_fieldFor? hf ▸ hk⟩
  refine ⟨hwalk e, ?_⟩
  rintro ⟨f, hf, hfail⟩
  have hop := Field.isOp_of_decode_error hfail
  cases h : (List.range d.arity).mapM (d.decodeOperand w) with
  | ok operands =>
    obtain ⟨o, ho⟩ := exists_mapM_iff.mp ⟨operands, h⟩ f.operand
      (List.mem_range.mpr (table_operand_lt_arity d hd f hf))
    rw [decodeOperand_of_fieldFor? (fieldFor?_of_isOp hd hf hop), hfail] at ho
    cases ho
  | error e' =>
    obtain ⟨g, hg, hfail'⟩ := hwalk e' h
    rw [table_operators_unique d hd g hg f hf (Field.isOp_of_decode_error hfail') hop, hfail] at hfail'
    cases hfail'
    rfl

end Descriptor

/-! ### Words -/

/-- A word does not decode exactly if its opcode is unknown, or if it holds an
undefined code in an operator field. -/
theorem decode_eq_error_iff {w : Word} {e : Error} :
    decode w = .error e ↔
      (∀ d ∈ table, d.opcode ≠ opcodeOf w) ∧ e = .unknownOpcode (opcodeOf w) ∨
      ∃ d ∈ table, d.opcode = opcodeOf w ∧ ∃ f ∈ d.fields, ∃ space, f.kind = .op space ∧
        (∀ o : Operator, o.space = space → o.code ≠ f.extract w) ∧
        e = .outOfRange (f.name d.mnemonic) (f.extract w) "a defined operator code" := by
  simp only [← Field.decode_eq_error_iff]
  unfold decode
  cases hd : Descriptor.ofOpcode? (opcodeOf w) with
  | none =>
    have hnone := Descriptor.ofOpcode?_eq_none_iff.mp hd
    simp only [Except.error.injEq]
    constructor
    · rintro rfl
      exact Or.inl ⟨hnone, rfl⟩
    · rintro (⟨-, rfl⟩ | ⟨d, hmem, hopcode, -⟩)
      · rfl
      · exact absurd hopcode (hnone d hmem)
  | some d =>
    obtain ⟨hmem, hopcode⟩ := Descriptor.ofOpcode?_eq_some_iff.mp hd
    simp only [bind_eq_error_iff, Descriptor.decodeOperands_eq_error_iff hmem]
    constructor
    · rintro (h | ⟨_, -, h⟩)
      · exact Or.inr ⟨d, hmem, hopcode, h⟩
      · cases h
    · rintro (⟨hnone, -⟩ | ⟨d', hmem', hopcode', h⟩)
      · exact absurd hopcode (hnone d hmem)
      · rw [Descriptor.ofOpcode?_eq_some_iff.mpr ⟨hmem', hopcode'⟩] at hd
        cases hd
        exact Or.inl h

theorem decode_eq_ok_iff {w : Word} {i : Instr} :
    decode w = .ok i ↔ ∃ d ∈ table, d.opcode = opcodeOf w ∧ i.mnemonic = d.mnemonic ∧
      i.updateFlags = d.decodeFlags w ∧ (List.range d.arity).mapM (d.decodeOperand w) = .ok i.operands := by
  unfold decode
  constructor
  · intro h
    cases hd : Descriptor.ofOpcode? (opcodeOf w) with
    | none => simp [hd] at h
    | some d =>
      simp only [hd] at h
      obtain ⟨hmem, hopcode⟩ := Descriptor.ofOpcode?_eq_some_iff.mp hd
      obtain ⟨operands, hops, h⟩ := bind_eq_ok_iff.mp h
      cases h
      exact ⟨d, hmem, hopcode, rfl, rfl, hops⟩
  · rintro ⟨d, hmem, hopcode, hmnemonic, hflags, hops⟩
    rw [Descriptor.ofOpcode?_eq_some_iff.mpr ⟨hmem, hopcode⟩]
    refine bind_eq_ok_iff.mpr ⟨i.operands, hops, ?_⟩
    rw [← hmnemonic, ← hflags]
    rfl

section Operands

variable {d : Descriptor} {w : Word} {operands : List Operand}

theorem Descriptor.length_of_decodeOperands (h : (List.range d.arity).mapM (d.decodeOperand w) = .ok operands) :
    operands.length = d.arity := by
  simpa using (mapM_eq_ok_iff.mp h).length_eq.symm

/-- Each operand is read on its own. -/
theorem Descriptor.decodeOperand_of_decodeOperands
    (h : (List.range d.arity).mapM (d.decodeOperand w) = .ok operands) {k : ℕ} (hk : k < d.arity) :
    d.decodeOperand w k = .ok (operands.getD k (.value 0)) := by
  have hk' : k < operands.length := by rwa [length_of_decodeOperands h]
  have hget := (List.forall₂_iff_get.mp (mapM_eq_ok_iff.mp h)).2 k (by simpa using hk) hk'
  simpa [List.getD, hk'] using hget

end Operands

end PulseAsm
