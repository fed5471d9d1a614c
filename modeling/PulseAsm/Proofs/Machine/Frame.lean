import PulseAsm.Proofs.Machine.Effect

/-!
# Registers that are left alone

An instruction changes no register but its target, so a step at an address leaves alone every
register that is not the target of the instruction whose word is there. At the addresses that
instructions take there is the word of one of them, or the zero of a second slot.
-/

namespace PulseAsm

open Machine

namespace Machine

variable {page reg : ℕ}

/-- A step leaves alone every register that is not the target of the instruction whose
word is at the program counter. -/
theorem reg?_step_of_holds {code : Code} {m : Machine} {i : Instr} (h : code.Holds m.pc i)
    (ht : i.target? ≠ some (page, reg)) : ((step code).apply m).2.reg? page reg = m.reg? page reg := by
  obtain ⟨w, henc, hget⟩ := h
  rw [decode_of_encode henc] at hget
  have hkeep := (execute_affects m.pc i m).regs page reg ht
  simp only [step, Exec.apply_bind, Exec.apply_get, hget, execute_folded]
  rcases hexec : (execute m.pc i).apply m with ⟨_ | next, m'⟩
  · rwa [hexec] at hkeep
  · rwa [hexec] at hkeep

/-- At every address that instructions take there is the word of one of them, or the
zero of a second slot. -/
theorem Code.HoldsAll.exists_holds {code : Code} {a : ℕ} {is : List Instr} (h : code.HoldsAll a is) {pc : ℕ}
    (hle : a ≤ pc) (hlt : pc < a + slotTotal is) : ∃ i, code.Holds pc i ∧ (i ∈ is ∨ i = nop) := by
  induction is generalizing a with
  | nil =>
    rw [slotTotal_nil] at hlt
    omega
  | cons i is ih =>
    obtain ⟨hi, hpad, hrest⟩ := h
    rw [slotTotal_cons] at hlt
    rcases Nat.lt_or_ge pc (a + slotsOf i.mnemonic) with hin | hout
    · rcases Nat.eq_or_lt_of_le hle with rfl | hlater
      · exact ⟨i, hi, Or.inl (List.mem_cons_self ..)⟩
      · -- only the second of two slots is left
        rcases slotsOf_cases i.mnemonic with hone | htwo
        · omega
        · have hpc : pc = a + 1 := by omega
          exact ⟨nop, hpc ▸ hpad htwo, Or.inr rfl⟩
    · obtain ⟨j, hj, hmem⟩ := ih hrest hout (by omega)
      exact ⟨j, hj, hmem.imp_left (List.mem_cons_of_mem i)⟩

end Machine

end PulseAsm
