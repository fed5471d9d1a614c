import PulseAsm.Proofs.Machine.Straight
import PulseAsm.Proofs.Program.Edits

/-!
# Loading registers

A register is loaded by one, two or three instructions, each of which computes
its new value from its old one (`LoadStep.eval`). Together they leave the value
that was asked for, reduced to a word; below `-2^30`, where the fold of the
immediate is not exact, the value raised by `2^31` (`loadedWord`).
-/

namespace PulseAsm

open Machine

/-! ### Appending instructions -/

/-- The program with instructions appended, all with the same remark. -/
def Program.pushAll (p : Program) (is : List Instr) (comment : Option String) : Program :=
  is.foldl (fun p i => p.push i (slotsOf i.mnemonic) comment) p

theorem Program.pushAll_eq (p : Program) (is : List Instr) (comment : Option String) :
    ∃ new : List Line, new.map (·.instr) = is ∧
      (∀ (k : ℕ) (l : Line), new[k]? = some l → l.addr = p.nextAddr + slotTotal (is.take k)) ∧
      p.pushAll is comment = { p with lines := p.lines ++ new, nextAddr := p.nextAddr + slotTotal is } := by
  induction is generalizing p with
  | nil => exact ⟨[], rfl, by simp, by simp [pushAll]⟩
  | cons i is ih =>
    obtain ⟨new, hmap, haddr, heq⟩ := ih (p.push i (slotsOf i.mnemonic) comment)
    refine ⟨⟨i, p.nextAddr, p.lines.length, comment⟩ :: new, by simp [hmap], fun k l hk => ?_, ?_⟩
    · cases k with
      | zero =>
        cases hk
        simp
      | succ k =>
        rw [haddr k l hk]
        simp [push, Nat.add_assoc]
    · have hstep : p.pushAll (i :: is) comment = (p.push i (slotsOf i.mnemonic) comment).pushAll is comment := rfl
      rw [hstep, heq]
      simp [push, Nat.add_assoc]

namespace Build

variable {v : ℤ}

theorem emit_loadInstr_apply (page reg : ℕ) (s : LoadStep) (comment : Option String) (p : Program) :
    (emit (loadInstr page reg s) comment).apply p =
      (.ok (), p.push (loadInstr page reg s) (slotsOf (loadInstr page reg s).mnemonic) comment) := by
  cases s <;> rfl

theorem load_apply_error {e : Error} (h : loadSteps v = .error e) (page reg : ℕ) (p : Program) :
    (load page reg v).apply p = (.error e, p) := by
  unfold load
  rw [apply_lift_bind, h]

theorem load_apply_ok {steps : List LoadStep} (h : loadSteps v = .ok steps) (page reg : ℕ) (p : Program) :
    ∃ comment, (load page reg v).apply p =
      (.ok steps.length, p.pushAll (steps.map (loadInstr page reg)) comment) := by
  have hforM : ∀ (comment : Option String) (p : Program),
      (steps.forM fun s => emit (loadInstr page reg s) comment).apply p =
        (.ok (), p.pushAll (steps.map (loadInstr page reg)) comment) := by
    intro comment
    clear h
    induction steps with
    | nil => exact fun p => rfl
    | cons s steps ih =>
      intro p
      rw [apply_forM_cons, apply_bind, emit_loadInstr_apply]
      exact ih _
  unfold load
  rw [apply_lift_bind, h]
  simp only [apply_bind, hforM, apply_pure]
  exact ⟨_, rfl⟩

end Build

/-! ### What a load leaves -/

/-- The value of a register after a step of loading it, from the value before. -/
def LoadStep.eval (x : UInt32) : LoadStep → UInt32
  | .write v => immediate v
  | .shiftLeft count => x <<< immediate count
  | .add v => x + immediate v

/-- The word that loading a value leaves in the register. -/
def loadedWord (v : ℤ) : UInt32 := UInt32.ofInt (if -2 ^ 30 ≤ v then v else v + 2 ^ 31)

theorem toNat_loadedWord {v : ℤ} (h : -2 ^ 31 ≤ v) :
    ((loadedWord v).toNat : ℤ) = if -2 ^ 30 ≤ v then v % 2 ^ 32 else v + 2 ^ 31 := by
  simp only [loadedWord, UInt32.ofInt, UInt32.toNat_ofNat']
  split <;> omega

theorem ofInt_shiftLeft_two (v : ℤ) : UInt32.ofInt (v / 4) <<< 2 = UInt32.ofInt (v - v % 4) := by
  apply UInt32.toNat_inj.mp
  have htwo : (2 : UInt32).toNat % 32 = 2 := rfl
  simp only [UInt32.toNat_shiftLeft, htwo, UInt32.ofInt, UInt32.toNat_ofNat', Nat.shiftLeft_eq]
  omega

/-- The immediate of a step. -/
def LoadStep.imm : LoadStep → ℤ
  | .write v => v
  | .shiftLeft count => count
  | .add v => v

theorem imm_of_mem_loadSteps {v : ℤ} {steps : List LoadStep} (h : loadSteps v = .ok steps) :
    ∀ s ∈ steps, -2 ^ 31 ≤ s.imm ∧ s.imm < 2 ^ 31 := by
  rcases loadSteps_eq_ok_iff.mp h with ⟨hlow, rfl⟩ | ⟨hhigh, rfl⟩
  · simp only [List.mem_singleton, forall_eq, LoadStep.imm]
    omega
  · simp only [List.forall_mem_cons, LoadStep.imm]
    refine ⟨by omega, by omega, ?_⟩
    split
    · simp
    · simp only [List.mem_singleton, forall_eq]
      omega

theorem foldl_eval_loadSteps {v : ℤ} {steps : List LoadStep} (h : loadSteps v = .ok steps) (x : UInt32) :
    steps.foldl LoadStep.eval x = loadedWord v := by
  rcases loadSteps_eq_ok_iff.mp h with ⟨hlow, rfl⟩ | ⟨hhigh, rfl⟩
  · simp only [List.foldl_cons, List.foldl_nil, LoadStep.eval, immediate, loadedWord]
    split
    · rw [signExtend31_of_exact ‹_› hlow.2]
    · rw [signExtend31_of_lt hlow.1 (by omega)]
  · have hupper : immediate (v / 4) = UInt32.ofInt (v / 4) := by
      rw [immediate, signExtend31_of_exact (by omega) (by omega)]
    have hrest : immediate (v % 4) = UInt32.ofInt (v % 4) := by
      rw [immediate, signExtend31_of_exact (by omega) (by omega)]
    have hcount : immediate ((2 : ℕ) : ℤ) = 2 := by decide
    have hvalue : loadedWord v = UInt32.ofInt v := by rw [loadedWord, if_pos (by omega)]
    rw [List.foldl_cons, List.foldl_cons, hvalue]
    simp only [LoadStep.eval, hupper, hcount, ofInt_shiftLeft_two]
    split
    · rename_i hdvd
      rw [List.foldl_nil, hdvd, Int.sub_zero]
    · rw [List.foldl_cons, List.foldl_nil, LoadStep.eval, hrest, ← UInt32.ofInt_add, Int.sub_add_cancel]

/-! ### The instructions of a load -/

namespace Build

variable {page reg : ℕ} {v : ℤ} {steps : List LoadStep} {m : Machine}

theorem straight_loadInstr (page reg : ℕ) (s : LoadStep) : (loadInstr page reg s).Straight := by
  cases s <;> simp [loadInstr, Instr.Straight, Action.ofMnemonic]

theorem slotsOf_loadInstr (page reg : ℕ) (s : LoadStep) : slotsOf (loadInstr page reg s).mnemonic = 1 := by
  cases s <;> rfl

theorem target?_loadInstr (page reg : ℕ) (s : LoadStep) : (loadInstr page reg s).target? = some (page, reg) := by
  cases s <;> rfl

theorem slotTotal_loadInstr (page reg : ℕ) (steps : List LoadStep) :
    slotTotal (steps.map (loadInstr page reg)) = steps.length := by
  rw [slotTotal_of_one (List.forall_mem_map.mpr fun s _ => slotsOf_loadInstr page reg s), List.length_map]

theorem perform_loadInstr (hp : page < m.pages.size) (hr : reg < 32) {x : UInt32} (hx : m.reg? page reg = some x)
    (s : LoadStep) : m.perform (loadInstr page reg s) = m.setReg page reg (s.eval x) := by
  unfold perform
  cases s with
  | write v => rw [loadInstr, execute_loadImm hp hr, assign_false]; rfl
  | shiftLeft count => rw [loadInstr, execute_combineImm (by decide) hp hr hx rfl, assign_false]; rfl
  | add v => rw [loadInstr, execute_combineImm (by decide) hp hr hx rfl, assign_false]; rfl

/-- Performing the steps one after the other runs through their values. -/
theorem foldl_perform_loadInstr (hp : page < m.pages.size) (hr : reg < 32) (x : UInt32) (steps : List LoadStep) :
    (steps.map (loadInstr page reg)).foldl perform (m.setReg page reg x) =
      m.setReg page reg (steps.foldl LoadStep.eval x) := by
  induction steps generalizing x with
  | nil => rfl
  | cons s steps ih =>
    have hx : (m.setReg page reg x).reg? page reg = some x := by
      rw [← assign_false, reg?_assign_self hp hr]
    rw [List.map_cons, List.foldl_cons, perform_loadInstr (by simpa using hp) hr hx, setReg_setReg, ih]
    rfl

/-- The instructions of a load leave its word in the register and all else as it is. -/
theorem foldl_perform_load (hp : page < m.pages.size) (hr : reg < 32) (h : loadSteps v = .ok steps) :
    (steps.map (loadInstr page reg)).foldl perform m = m.setReg page reg (loadedWord v) := by
  obtain ⟨x, hx⟩ := exists_reg? hp hr
  rw [← foldl_eval_loadSteps h x]
  cases steps with
  | nil => simp [loadSteps_eq_ok_iff] at h
  | cons s steps => rw [List.map_cons, List.foldl_cons, perform_loadInstr hp hr hx, foldl_perform_loadInstr hp hr]; rfl

/-- A load fails exactly outside `[-2^31, 2^32)`, and then does nothing. -/
theorem load_cases (page reg : ℕ) (v : ℤ) (p : Program) :
    (¬ (-2 ^ 31 ≤ v ∧ v < 2 ^ 32) ∧ ∃ e, (load page reg v).apply p = (.error e, p)) ∨
      (-2 ^ 31 ≤ v ∧ v < 2 ^ 32) ∧ ∃ n q, (load page reg v).apply p = (.ok n, q) := by
  cases hsteps : loadSteps v with
  | error e =>
    refine Or.inl ⟨fun hrange => ?_, e, load_apply_error hsteps page reg p⟩
    obtain ⟨steps, hok⟩ := exists_loadSteps_iff.mpr hrange
    rw [hsteps] at hok
    cases hok
  | ok steps =>
    obtain ⟨comment, happly⟩ := load_apply_ok hsteps page reg p
    exact Or.inr ⟨exists_loadSteps_iff.mp ⟨steps, hsteps⟩, _, _, happly⟩

/-- What a load that succeeds has appended. -/
theorem lines_of_load {n : ℕ} {p q : Program} (h : (load page reg v).apply p = (.ok n, q)) :
    ∃ (steps : List LoadStep) (new : List Line), loadSteps v = .ok steps ∧ n = steps.length ∧
      new.map (·.instr) = steps.map (loadInstr page reg) ∧
      (∀ (k : ℕ) (l : Line), new[k]? = some l → l.addr = p.nextAddr + k) ∧
      q = { p with lines := p.lines ++ new, nextAddr := p.nextAddr + n } := by
  cases hsteps : loadSteps v with
  | error e =>
    rw [load_apply_error hsteps] at h
    cases h
  | ok steps =>
    obtain ⟨comment, happly⟩ := load_apply_ok hsteps page reg p
    obtain ⟨new, hnew, haddr, hpush⟩ := p.pushAll_eq (steps.map (loadInstr page reg)) comment
    rw [happly, hpush, slotTotal_loadInstr] at h
    cases h
    refine ⟨steps, new, rfl, rfl, hnew, fun k l hk => ?_, rfl⟩
    have hlen : new.length = steps.length := by rw [← List.length_map (·.instr), hnew, List.length_map]
    have hlt : k < new.length := (List.getElem?_eq_some_iff.mp hk).1
    rw [haddr k l hk, ← List.map_take, slotTotal_loadInstr, List.length_take, Nat.min_eq_left (by omega)]

/-- An image that has the words of the appended lines at their addresses holds the load. -/
theorem holdsAll_load {new : List Line} {a : ℕ} {image : List Word}
    (hnew : new.map (·.instr) = steps.map (loadInstr page reg))
    (haddr : ∀ (k : ℕ) (l : Line), new[k]? = some l → l.addr = a + k)
    (himage : ∀ l ∈ new, ∃ w, encode l.instr = .ok w ∧ image[l.addr]? = some w) :
    (Code.ofWords image).HoldsAll a (steps.map (loadInstr page reg)) := by
  refine Code.holdsAll_of_forall (List.forall_mem_map.mpr fun s _ => slotsOf_loadInstr page reg s) fun k i hk => ?_
  rw [← hnew, List.getElem?_map, Option.map_eq_some_iff] at hk
  obtain ⟨l, hl, rfl⟩ := hk
  obtain ⟨w, henc, hw⟩ := himage l (List.mem_of_getElem? hl)
  exact ⟨w, henc, by rw [← haddr k l hl, Code.getElem?_ofWords, hw]; rfl⟩

/-- A load runs through, one step for each instruction. -/
theorem steps_load {code : Code} {a : ℕ} (hp : page < m.pages.size) (hr : reg < 32) (h : loadSteps v = .ok steps)
    (hcode : code.HoldsAll a (steps.map (loadInstr page reg))) :
    Steps code steps.length (m.goto a) ((m.setReg page reg (loadedWord v)).goto (a + steps.length)) := by
  have hrun := steps_of_holdsAll (m := m) hcode
    (List.forall_mem_map.mpr fun s _ => straight_loadInstr page reg s)
    (List.forall_mem_map.mpr fun s _ page' reg' ht => by
      rw [target?_loadInstr] at ht
      cases ht
      exact hp)
  rwa [slotTotal_loadInstr, foldl_perform_load hp hr h] at hrun

/-- The instruction of a step encodes if the register exists and the immediate fits. -/
theorem exists_encode_loadInstr (hpage : page < 8) (hreg : reg < 32) {s : LoadStep} (hs : -2 ^ 31 ≤ s.imm)
    (hs' : s.imm < 2 ^ 31) : ∃ w, encode (loadInstr page reg s) = .ok w := by
  have hp : (Field.page 0).Accepts (.value page) := Field.accepts_page_iff.mpr ⟨page, rfl, hpage⟩
  have hr : ∀ k offset, (Field.reg k offset).Accepts (.value reg) :=
    fun k offset => Field.accepts_reg_iff.mpr ⟨reg, rfl, hreg⟩
  have hi : ∀ k, (Field.imm k).Accepts (.value s.imm) :=
    fun k => (Field.accepts_imm_iff rfl).mpr ⟨s.imm, rfl, hs, hs'⟩
  cases s with
  | write v =>
    have hfields : (Descriptor.ofMnemonic? "regwi").map (·.fields) = some [.page 0, .reg 1 41, .imm 2] := rfl
    refine exists_encode_of_accepts hfields rfl ?_ rfl
    simp only [List.forall_mem_cons]
    exact ⟨hp, hr 1 41, hi 2, by simp⟩
  | shiftLeft count =>
    have hfields : (Descriptor.ofMnemonic? "bitwi").map (·.fields) =
        some [.page 0, .reg 1 41, .reg 2 36, .op 3 .bitwise, .imm 4] := rfl
    refine exists_encode_of_accepts hfields rfl ?_ rfl
    simp only [List.forall_mem_cons]
    exact ⟨hp, hr 1 41, hr 2 36, (Field.accepts_op_iff rfl).mpr ⟨.shl, rfl, rfl⟩, hi 4, by simp⟩
  | add v =>
    have hfields : (Descriptor.ofMnemonic? "mathi").map (·.fields) =
        some [.page 0, .reg 1 41, .reg 2 36, .op 3 .arith, .imm 4] := rfl
    refine exists_encode_of_accepts hfields rfl ?_ rfl
    simp only [List.forall_mem_cons]
    exact ⟨hp, hr 1 41, hr 2 36, (Field.accepts_op_iff rfl).mpr ⟨.add, rfl, rfl⟩, hi 4, by simp⟩

end Build

/-- The number of instructions that load a value. -/
theorem length_loadSteps {v : ℤ} {steps : List LoadStep} (h : loadSteps v = .ok steps) :
    steps.length = if v < 2 ^ 30 then 1 else if 4 ∣ v then 2 else 3 := by
  rcases loadSteps_eq_ok_iff.mp h with ⟨hlow, rfl⟩ | ⟨hhigh, rfl⟩
  · rw [if_pos hlow.2]
    rfl
  · have hv : ¬ v < 2 ^ 30 := by omega
    rw [if_neg hv]
    by_cases hdvd : v % 4 = 0
    · rw [if_pos hdvd, if_pos (Int.dvd_of_emod_eq_zero hdvd)]
      rfl
    · rw [if_neg hdvd, if_neg fun h => hdvd (Int.emod_eq_zero_of_dvd h)]
      rfl

/-- **Loading is exact**: a load fails exactly outside `[-2^31, 2^32)`, and then
leaves the program as it was. Otherwise it appends one instruction below `2^30`
and from there on two or three, all of which encode; and wherever their words
stand at their addresses, a machine that has the page runs through them without a
trap and ends with the value, reduced to a word, in the register, or with the
value raised by `2^31` if it is below `-2^30`, and with all else as it was. -/
theorem load_is_exact {page reg : ℕ} (hpage : page < 8) (hreg : reg < 32) (v : ℤ) (p : Program) :
    ((∃ e, ((Build.load page reg v).apply p).1 = .error e) ↔ ¬ (-2 ^ 31 ≤ v ∧ v < 2 ^ 32)) ∧
    (∀ e q, (Build.load page reg v).apply p = (.error e, q) → q = p) ∧
    ∀ n q, (Build.load page reg v).apply p = (.ok n, q) →
      n = (if v < 2 ^ 30 then 1 else if 4 ∣ v then 2 else 3) ∧
      ∃ new : List Line, new.length = n ∧ q = { p with lines := p.lines ++ new, nextAddr := p.nextAddr + n } ∧
        (∀ (k : ℕ) (l : Line), new[k]? = some l → l.addr = p.nextAddr + k) ∧
        (∀ l ∈ new, ∃ w, encode l.instr = .ok w) ∧
        ∀ (image : List Word) (m : Machine),
          (∀ l ∈ new, ∃ w, encode l.instr = .ok w ∧ image[l.addr]? = some w) →
          page < m.pages.size → m.pc = p.nextAddr →
          ∃ m', Steps (Code.ofWords image) n m m' ∧ m'.pc = m.pc + n ∧ m'.flags = m.flags ∧
            (∃ r, m'.reg? page reg = some r ∧
              (r.toNat : ℤ) = if -2 ^ 30 ≤ v then v % 2 ^ 32 else v + 2 ^ 31) ∧
            ∀ page' reg', (page', reg') ≠ (page, reg) → m'.reg? page' reg' = m.reg? page' reg' := by
  refine ⟨?_, fun e q h => ?_, fun n q h => ?_⟩
  · rcases Build.load_cases page reg v p with ⟨hrange, e, h⟩ | ⟨hrange, n, q, h⟩
    · rw [h]
      exact ⟨fun _ => hrange, fun _ => ⟨e, rfl⟩⟩
    · rw [h]
      exact ⟨fun ⟨e, he⟩ => (nomatch he), fun hr => absurd hrange hr⟩
  · rcases Build.load_cases page reg v p with ⟨-, e', h'⟩ | ⟨-, n, q', h'⟩
    · rw [h'] at h
      cases h
      rfl
    · rw [h'] at h
      cases h
  · obtain ⟨steps, new, hsteps, rfl, hnew, haddr, rfl⟩ := Build.lines_of_load h
    have hlen : new.length = steps.length := by rw [← List.length_map (·.instr), hnew, List.length_map]
    refine ⟨length_loadSteps hsteps, new, hlen, rfl, haddr, fun l hl => ?_, fun image m himage hp hpc => ?_⟩
    · have hmem : l.instr ∈ steps.map (Build.loadInstr page reg) := hnew ▸ List.mem_map_of_mem hl
      obtain ⟨s, hs, heq⟩ := List.mem_map.mp hmem
      rw [← heq]
      exact Build.exists_encode_loadInstr hpage hreg (imm_of_mem_loadSteps hsteps s hs).1
        (imm_of_mem_loadSteps hsteps s hs).2
    · have hrun := Build.steps_load hp hreg hsteps (Build.holdsAll_load hnew haddr himage)
      rw [← hpc] at hrun
      refine ⟨_, hrun, rfl, rfl, ⟨loadedWord v, ?_, ?_⟩, fun page' reg' hne => ?_⟩
      · exact reg?_assign_self hp hreg (loadedWord v) false
      · exact toNat_loadedWord (exists_loadSteps_iff.mp ⟨steps, hsteps⟩).1
      · exact reg?_assign_ne hne (loadedWord v) false

/-- All ones in the last register of the last page take three instructions. -/
theorem load_is_exact_all_ones :
    ∃ q m', (Build.load 7 31 0xFFFFFFFF).apply bareProgram = (.ok 3, q) ∧
      q.assemble = .ok [0x19E03E003FFFFFFF, 0x16E13FF000000002, 0x12E23FF000000003] ∧
      Steps (Code.ofWords [0x19E03E003FFFFFFF, 0x16E13FF000000002, 0x12E23FF000000003]) 3 (start 8) m' ∧
      m'.pc = 3 ∧ ∃ r, m'.reg? 7 31 = some r ∧ (r.toNat : ℤ) = 0xFFFFFFFF := by
  obtain ⟨-, -, hok⟩ := load_is_exact (by decide : 7 < 8) (by decide : 31 < 32) 0xFFFFFFFF bareProgram
  obtain ⟨-, new, -, hq, -, -, hrun⟩ := hok 3 _ rfl
  have hnew : ((Build.load 7 31 0xFFFFFFFF).apply bareProgram).2.lines = new := congrArg Program.lines hq
  have himage : ∀ l ∈ ((Build.load 7 31 0xFFFFFFFF).apply bareProgram).2.lines, ∃ w, encode l.instr = .ok w ∧
      [0x19E03E003FFFFFFF, 0x16E13FF000000002, 0x12E23FF000000003][l.addr]? = some w :=
    List.forall_mem_cons.mpr ⟨⟨_, rfl, rfl⟩, List.forall_mem_cons.mpr ⟨⟨_, rfl, rfl⟩,
      List.forall_mem_cons.mpr ⟨⟨_, rfl, rfl⟩, by simp⟩⟩⟩
  obtain ⟨m', hsteps, hpc, -, hreg, -⟩ := hrun _ (start 8) (hnew ▸ himage) (by decide) rfl
  exact ⟨_, m', rfl, rfl, hsteps, hpc, hreg⟩

end PulseAsm
