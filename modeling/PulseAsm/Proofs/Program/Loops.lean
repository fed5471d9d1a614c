import PulseAsm.Proofs.Program.Addresses
import PulseAsm.Proofs.Program.Blocks

/-!
# Loops are compiled correctly

A block that is built on a program leaves code that the machine runs as the
structured program of the block says. There are two halves to this. The code of
the block stands where it should, with the branch of each loop going back to its
body (`Block.Built.at_flow`). And nothing but the loop itself writes the counter of
a loop: what builders write is reserved by the board or was not handed out before,
so only a register load or an instruction of the caller's own choice could
(`Block.Built.disciplined`).

Together they give `run_eq_exec_flow`: the machine halts at the end of the
program, in the state that the structured program leads to.
-/

namespace PulseAsm

open Machine

/-! ### What a straight step appends -/

section Straight

variable {s : Step} {p q : Program}

theorem Step.edits_of_apply {res : Except Error Unit} (h : s.apply.apply p = (res, q)) : Edits (s.Makes p) p q := by
  have hedits := s.edits p
  rwa [h] at hedits

/-- What a step appends is among the instructions that it makes. -/
theorem Step.makes_of_mem_appended {res : Except Error Unit} (h : s.apply.apply p = (res, q)) :
    ∀ i ∈ p.appended q, s.Makes p (.append i) := by
  obtain ⟨new, hnew, hall⟩ := (Step.edits_of_apply h).exists_lines
  rw [Program.appended_eq hnew]
  exact List.forall_mem_map.mpr hall

theorem Step.Straight.of_makes (hs : s.Straight) {i : Instr} (h : s.Makes p (.append i)) : i.Straight := by
  cases h with
  | playLoad | triggerLoad | regLoad | writeImm => exact Build.straight_loadInstr _ _ _
  | instr => exact hs
  | openLoad | closeCount | closeBranch | finish => exact hs.elim
  | _ => simp [Instr.Straight, Action.ofMnemonic, Build.playInstr, Build.portInstr, Build.markerInstr]

/-- The register that a step writes by the caller's own choice. -/
def Step.written? (labels : LabelTable) : Step → Option (ℕ × ℕ)
  | .writeImm page addr _ => some (page, addr)
  | .instr mnemonic operands _ => (Instr.withAddresses labels ⟨mnemonic, operands, false⟩).target?
  | _ => none

theorem Build.withAddresses_loadInstr (labels : LabelTable) (page reg : ℕ) (s : LoadStep) :
    (loadInstr page reg s).withAddresses labels = loadInstr page reg s := by
  cases s <;> rfl

theorem Board.reserves_pulse {board : Board} {ch : ℕ} (h : ch < board.gens.length) {e : String × ℕ × RegKind}
    (he : e ∈ (PulseRegs.ofGen ch).named) : board.Reserves (PulseRegs.ofGen ch).page e.2.1 :=
  ⟨_, List.mem_append_left _ (List.mem_flatMap.mpr ⟨ch, List.mem_range.mpr h, List.mem_map_of_mem he⟩), rfl, rfl⟩

theorem Board.reserves_pulse_time {board : Board} {ch : ℕ} (h : ch < board.gens.length) :
    board.Reserves (PulseRegs.ofGen ch).page (PulseRegs.ofGen ch).time := by
  have hmem : ("t", (PulseRegs.ofGen ch).time, RegKind.time) ∈ (PulseRegs.ofGen ch).named := by simp [PulseRegs.named]
  exact Board.reserves_pulse h hmem

theorem Board.reserves_trigger_time (board : Board) : board.Reserves triggerPage triggerTimeReg :=
  ⟨_, List.mem_append_right _ (List.mem_cons_self ..), rfl, rfl⟩

theorem Board.reserves_trigger_out (board : Board) : board.Reserves triggerPage triggerOutReg :=
  ⟨_, List.mem_append_right _ (List.mem_cons_of_mem _ (List.mem_cons_self ..)), rfl, rfl⟩

/-- **What a straight step writes**: a register of the caller's own choice, one that the
board reserves, or one that was not in use. -/
theorem Step.Straight.target_cases (hs : s.Straight) (h : s.apply.apply p = (.ok (), q)) {labels : LabelTable}
    {i : Instr} (hi : i ∈ p.appended q) {x : ℕ × ℕ} (hx : (i.withAddresses labels).target? = some x) :
    s.written? labels = some x ∨ p.board.Reserves x.1 x.2 ∨ p.registers.isUsed x.1 x.2 = false := by
  cases Step.makes_of_mem_appended h i hi with
  | playLoad hch step =>
    rw [Build.withAddresses_loadInstr, Build.target?_loadInstr] at hx
    cases hx
    exact Or.inr (Or.inl (Board.reserves_pulse_time hch))
  | triggerLoad step =>
    rw [Build.withAddresses_loadInstr, Build.target?_loadInstr] at hx
    cases hx
    exact Or.inr (Or.inl (Board.reserves_trigger_time _))
  | regLoad reg hreg step =>
    -- the register that is loaded is the one that is handed out
    obtain ⟨r, registers, halloc⟩ := hreg
    rw [Build.withAddresses_loadInstr, Build.target?_loadInstr] at hx
    cases hx
    exact Or.inr (Or.inr (RegisterFile.allocates_of_allocate halloc).free)
  | writeImm step =>
    rw [Build.withAddresses_loadInstr, Build.target?_loadInstr] at hx
    exact Or.inl hx
  | instr => exact Or.inl hx
  | openLoad | closeCount | closeBranch | finish => exact hs.elim
  | _ =>
    simp [Instr.target?, Instr.withAddresses, Action.ofMnemonic, Build.playInstr, Build.portInstr,
      Build.markerInstr] at hx

end Straight

/-! ### Growth of a program under construction -/

theorem Edits.weaken {A : Change → Prop} {p q : Program} (h : Edits A p q) : Edits (fun _ => True) p q :=
  Relation.ReflTransGen.mono (fun _ _ ⟨c, _, he⟩ => ⟨c, trivial, he⟩) _ _ h

theorem Program.Laid.edits {A : Change → Prop} {p q : Program} (hp : p.Laid) (h : Edits A p q) : q.Laid :=
  h.preserves hp fun _ _ _ _ he hp => hp.edit he

theorem Build.edits_of_openLoop {n : ℕ} {name : Option String} {c : Register} {p q : Program}
    (h : (openLoop n name).apply p = (.ok c, q)) : Edits (fun _ => True) p q := by
  have hwithin : Within (fun _ => True) (openLoop n name) p :=
    openLoop_within (fun _ _ => trivial) (fun _ _ _ _ => trivial) (fun _ => trivial) fun _ => trivial
  unfold Within at hwithin
  rwa [h] at hwithin

theorem Build.edits_of_closeLoop {p q : Program} (h : closeLoop.apply p = (.ok (), q)) :
    Edits (fun _ => True) p q := by
  have hwithin : Within (fun _ => True) closeLoop p :=
    closeLoop_within (fun _ _ => trivial) (fun _ _ => trivial) fun _ _ => trivial
  unfold Within at hwithin
  rwa [h] at hwithin

theorem Block.Built.edits {labels : LabelTable} {b : Block} {p q : Program} {flow : Flow}
    (h : b.Built labels p q flow) : Edits (fun _ => True) p q := by
  induction h with
  | done => exact .refl
  | step _ hstep _ ih => exact (Step.edits_of_apply hstep).weaken.trans ih
  | loop hopen _ _ hclose _ ihbody ihnext =>
    exact (Build.edits_of_openLoop hopen).trans (ihbody.trans ((Build.edits_of_closeLoop hclose).trans ihnext))

/-! ### The code of a block -/

/-- The code holds a program, its labels replaced by the addresses of a table that
agrees with the program's own. -/
structure Program.Loaded (p : Program) (code : Code) (labels : LabelTable) : Prop where
  laid : p.Laid
  code : code.HoldsAll 0 (p.lines.map fun l => l.instr.withAddresses labels)
  label : ∀ name a, p.labels.lookup name = some a → labels.lookup name = some a

theorem slotTotal_withAddresses (labels : LabelTable) (lines : List Line) :
    slotTotal (lines.map fun l => l.instr.withAddresses labels) = slotSum lines := by
  simp [slotTotal, slotSum, Function.comp_def, Instr.withAddresses]

theorem Build.withAddresses_branchInstr {labels : LabelTable} {c : Register} {a : ℕ}
    (h : labels.lookup (Text.upperCase c.name) = some a) :
    (branchInstr c).withAddresses labels = ⟨"jnz", [.value a], false⟩ := by
  simp [branchInstr, Instr.withAddresses, Operand.withAddress, h]

namespace Program.Loaded

variable {p q : Program} {code : Code} {labels : LabelTable}

/-- A program that is loaded as a part of another is loaded. -/
theorem of_extends (h : q.Loaded code labels) (hp : p.Laid) (hpq : p.Extends q) : p.Loaded code labels := by
  obtain ⟨new, hnew⟩ := hpq.lines
  have hcode := h.code
  rw [hnew, List.map_append, Code.holdsAll_append] at hcode
  exact ⟨hp, hcode.1, fun name a ha => h.label name a (hpq.label name a ha)⟩

/-- What a program grew by stands where it was to be appended. -/
theorem holdsAll_appended (h : q.Loaded code labels) (hp : p.Laid) (hpq : p.Extends q) :
    code.HoldsAll p.nextAddr ((p.appended q).map (·.withAddresses labels)) ∧
      q.nextAddr = p.nextAddr + slotTotal ((p.appended q).map (·.withAddresses labels)) := by
  obtain ⟨new, hnew⟩ := hpq.lines
  have hcode := h.code
  rw [hnew, List.map_append, Code.holdsAll_append, slotTotal_withAddresses, Nat.zero_add, ← hp.next] at hcode
  rw [Program.appended_eq hnew, List.map_map]
  refine ⟨hcode.2, ?_⟩
  rw [h.laid.next, hnew, slotSum_append, ← hp.next, ← slotTotal_withAddresses labels new]
  rfl

end Program.Loaded

/-- **The code of a block stands in place**: between the addresses before and after it
was built, and with every branch going back to the body of its loop. -/
theorem Block.Built.at_flow {code : Code} {labels : LabelTable} {b : Block} {p q : Program} {flow : Flow}
    (h : b.Built labels p q flow) (hp : p.Laid) (hq : q.Loaded code labels) :
    flow.At code p.nextAddr q.nextAddr := by
  induction h with
  | done => exact .done _
  | @step p r q s hs next flow hstep hnext ih =>
    have hedits := Step.edits_of_apply hstep
    have hr := hp.edits hedits
    obtain ⟨hcode, haddr⟩ := (hq.of_extends hr hnext.edits.extends).holdsAll_appended hp hedits.extends
    refine .run (List.forall_mem_map.mpr fun i hi => ?_) hcode ?_
    · have hi : i.Straight := hs.of_makes (Step.makes_of_mem_appended hstep i hi)
      exact hi
    · rw [← haddr]
      exact ih hr hq
  | @loop p p₁ p₂ p₃ q n name c body next flow flow' hopen hbody hloops hclose hnext ihbody ihnext =>
    have hedits₁ := Build.edits_of_openLoop hopen
    have hedits₃ := Build.edits_of_closeLoop hclose
    have hp₁ := hp.edits hedits₁
    have hp₂ := hp₁.edits hbody.edits
    have hp₃ := hp₂.edits hedits₃
    have hl₃ := hq.of_extends hp₃ hnext.edits.extends
    have hl₂ := hl₃.of_extends hp₂ hedits₃.extends
    have hl₁ := hl₂.of_extends hp₁ hbody.edits.extends
    obtain ⟨hcode₁, -⟩ := hl₁.holdsAll_appended hp hedits₁.extends
    obtain ⟨hcode₃, -⟩ := hl₃.holdsAll_appended hp₂ hedits₃.extends
    have hat := ihbody hp₁ hl₂
    have hat' := ihnext hp₃ hq
    obtain ⟨r, registers, steps, new, -, hsteps, hnew, hfree, rfl⟩ := Build.openLoop_eq_ok hopen
    obtain ⟨c', rest, new', hrest, hnew', rfl⟩ := Build.closeLoop_eq_ok hclose
    have hlabel : labels.lookup (Text.upperCase c.name) = some (p.nextAddr + steps.length) :=
      hl₁.label _ _ (by simp [List.lookup_append, hfree])
    rw [hloops] at hrest
    cases hrest
    rw [Program.appended_eq rfl, hnew, List.map_map] at hcode₁
    rw [Program.appended_eq rfl, hnew'] at hcode₃
    obtain ⟨hcount, -, hbranch, -⟩ := hcode₃
    have hbranch : code.Holds (p₂.nextAddr + 1) ((Build.branchInstr c).withAddresses labels) := hbranch
    rw [Build.withAddresses_branchInstr hlabel] at hbranch
    refine .loop hsteps ?_ hat hcount hbranch hat'
    simpa only [Function.comp_def, Build.withAddresses_loadInstr] using hcode₁

/-! ### The registers that a block writes -/

section Writes

variable {labels : LabelTable} {b : Block} {p q : Program} {flow : Flow}

/-- A register that is reserved or not in use later on was so before. -/
theorem Program.Extends.unclaimed (h : p.Extends q) {x : ℕ × ℕ}
    (hx : q.board.Reserves x.1 x.2 ∨ q.registers.isUsed x.1 x.2 = false) :
    p.board.Reserves x.1 x.2 ∨ p.registers.isUsed x.1 x.2 = false := by
  rcases hx with hx | hx
  · exact Or.inl (h.board ▸ hx)
  · refine Or.inr (Bool.eq_false_iff.mpr fun hused => ?_)
    rw [h.used _ _ hused] at hx
    cases hx

/-- A block writes registers of the caller's own choice, registers that the board
reserves, and registers that were not in use before. -/
theorem Block.Built.writes_cases (h : b.Built labels p q flow) :
    ∀ x ∈ flow.writes, (∃ s ∈ b.steps, s.written? labels = some x) ∨ p.board.Reserves x.1 x.2 ∨
      p.registers.isUsed x.1 x.2 = false := by
  induction h with
  | done => simp [Flow.writes]
  | @step p r q s hs next flow hstep hnext ih =>
    intro x hx
    rcases List.mem_append.mp hx with hx | hx
    · obtain ⟨j, hj, hx⟩ := List.mem_filterMap.mp hx
      obtain ⟨i, hi, rfl⟩ := List.mem_map.mp hj
      rcases hs.target_cases hstep hi hx with hwritten | hx
      · exact Or.inl ⟨s, List.mem_cons_self .., hwritten⟩
      · exact Or.inr hx
    · rcases ih x hx with ⟨s', hs', hwritten⟩ | hx
      · exact Or.inl ⟨s', List.mem_cons_of_mem _ hs', hwritten⟩
      · exact Or.inr ((Step.edits_of_apply hstep).extends.unclaimed hx)
  | @loop p p₁ p₂ p₃ q n name c body next flow flow' hopen hbody hloops hclose hnext ihbody ihnext =>
    have hext₁ := (Build.edits_of_openLoop hopen).extends
    have hext₃ := hext₁.trans (hbody.edits.extends.trans (Build.edits_of_closeLoop hclose).extends)
    simp only [Flow.writes, List.forall_mem_cons, List.forall_mem_append]
    refine ⟨?_, fun x hx => ?_, fun x hx => ?_⟩
    · obtain ⟨r, registers, steps, new, halloc, -⟩ := Build.openLoop_eq_ok hopen
      exact Or.inr (Or.inr halloc.free)
    · rcases ihbody x hx with ⟨s, hs, hwritten⟩ | hx
      · exact Or.inl ⟨s, by simp [Block.steps, hs], hwritten⟩
      · exact Or.inr (hext₁.unclaimed hx)
    · rcases ihnext x hx with ⟨s, hs, hwritten⟩ | hx
      · exact Or.inl ⟨s, by simp [Block.steps, hs], hwritten⟩
      · exact Or.inr (hext₃.unclaimed hx)

/-- The counter of a loop that was opened is in use from then on, and not reserved. -/
theorem Build.counter_of_openLoop {n : ℕ} {name : Option String} {c : Register} (hp : p.Guarded)
    (h : (openLoop n name).apply p = (.ok c, q)) :
    q.registers.isUsed c.page c.addr = true ∧ ¬ p.board.Reserves c.page c.addr := by
  obtain ⟨r, registers, steps, new, halloc, -, -, -, rfl⟩ := Build.openLoop_eq_ok h
  refine ⟨halloc.taken (Nat.lt_of_lt_of_le halloc.addr_lt hp.perPage), fun hres => ?_⟩
  have hused := hp.reserved _ _ hres
  rw [halloc.free] at hused
  cases hused

/-- The counters of a block are in use in the end, and none is reserved. -/
theorem Block.Built.counters (h : b.Built labels p q flow) (hp : p.Guarded) :
    ∀ c ∈ flow.counters, q.registers.isUsed c.page c.addr = true ∧ ¬ p.board.Reserves c.page c.addr := by
  induction h with
  | done => simp [Flow.counters]
  | step hs hstep _ ih =>
    have hext := (Step.edits_of_apply hstep).extends
    rw [← hext.board]
    exact ih (hp.extends hext)
  | loop hopen hbody _ hclose hnext ihbody ihnext =>
    have hext₁ := (Build.edits_of_openLoop hopen).extends
    have hext₃ := (Build.edits_of_closeLoop hclose).extends
    have hext := hext₁.trans (hbody.edits.extends.trans hext₃)
    have hlater := hext₃.trans hnext.edits.extends
    obtain ⟨hused, hres⟩ := Build.counter_of_openLoop hp hopen
    simp only [Flow.counters, List.forall_mem_cons, List.forall_mem_append]
    refine ⟨⟨?_, hres⟩, fun c hc => ?_, ?_⟩
    · exact hlater.used _ _ (hbody.edits.extends.used _ _ hused)
    · obtain ⟨hused, hres⟩ := ihbody (hp.extends hext₁) c hc
      exact ⟨hlater.used _ _ hused, hext₁.board ▸ hres⟩
    · rw [← hext.board]
      exact ihnext (hp.extends hext)

/-- A register that is in use and not reserved is written only by choice. -/
theorem Block.Built.place_notMem_writes (h : b.Built labels p q flow) {c : Register}
    (hused : p.registers.isUsed c.page c.addr = true) (hres : ¬ p.board.Reserves c.page c.addr)
    (hown : ∀ s ∈ b.steps, s.written? labels ≠ some c.place) : c.place ∉ flow.writes := by
  intro hmem
  rcases h.writes_cases c.place hmem with ⟨s, hs, hwritten⟩ | hx | hx
  · exact hown s hs hwritten
  · exact hres hx
  · have hused : p.registers.isUsed c.place.1 c.place.2 = true := hused
    rw [hused] at hx
    cases hx

/-- **Counters are left alone**, unless the caller chooses to write one. -/
theorem Block.Built.disciplined (h : b.Built labels p q flow) (hp : p.Guarded)
    (hown : ∀ s ∈ b.steps, ∀ c ∈ flow.counters, s.written? labels ≠ some c.place) : flow.Disciplined := by
  induction h with
  | done => trivial
  | step hs hstep _ ih =>
    exact ih (hp.extends (Step.edits_of_apply hstep).extends) fun s hs => hown s (List.mem_cons_of_mem _ hs)
  | @loop p p₁ p₂ p₃ q n name c body next flow flow' hopen hbody hloops hclose hnext ihbody ihnext =>
    have hext₁ := (Build.edits_of_openLoop hopen).extends
    have hext₃ := (Build.edits_of_closeLoop hclose).extends
    have hext := hext₁.trans (hbody.edits.extends.trans hext₃)
    obtain ⟨hused, hres⟩ := Build.counter_of_openLoop hp hopen
    have hinner : ∀ s, s ∈ body.steps ∨ s ∈ next.steps → s ∈ (Block.loop n name body next).steps := by
      rintro s (hs | hs) <;> simp [Block.steps, hs]
    refine ⟨?_, ?_, ?_, ?_⟩
    · exact hbody.place_notMem_writes hused (hext₁.board ▸ hres) fun s hs =>
        hown s (hinner s (Or.inl hs)) c (List.mem_cons_self ..)
    · -- the counters handed out so far stay in use
      have hcounters : ∀ c' ∈ c :: flow.counters,
          p₂.registers.isUsed c'.page c'.addr = true ∧ ¬ p₁.board.Reserves c'.page c'.addr :=
        List.forall_mem_cons.mpr ⟨⟨hbody.edits.extends.used _ _ hused, hext₁.board ▸ hres⟩,
          hbody.counters (hp.extends hext₁)⟩
      intro c' hc'
      obtain ⟨hused', hres'⟩ := hcounters c' hc'
      rw [← (hbody.edits.extends.trans hext₃).board] at hres'
      exact hnext.place_notMem_writes (hext₃.used _ _ hused') hres' fun s hs =>
        hown s (hinner s (Or.inr hs)) c' (List.cons_subset_cons c (List.subset_append_left ..) hc')
    · exact ihbody (hp.extends hext₁) fun s hs c' hc' =>
        hown s (hinner s (Or.inl hs)) c' (List.mem_cons_of_mem _ (List.mem_append_left _ hc'))
    · exact ihnext (hp.extends hext) fun s hs c' hc' =>
        hown s (hinner s (Or.inr hs)) c' (List.mem_cons_of_mem _ (List.mem_append_right _ hc'))

end Writes

/-! ### The machine on a program with loops -/

theorem Program.Loaded.of_assemble {p : Program} {words : List Word} (hp : p.Laid) (h : p.assemble = .ok words) :
    p.Loaded (Code.ofWords words) p.labels := by
  have hlines : PulseAsm.assemble ([] ++ p.lines ++ []) p.labels = .ok words := by
    rw [List.nil_append, List.append_nil]
    exact h
  exact ⟨hp, holdsAll_assemble hlines, fun _ _ h => h⟩

theorem Program.nextAddr_ofBoard {board : Board} {p : Program} (h : Program.ofBoard board = .ok p) :
    p.nextAddr = 0 := by
  obtain ⟨-, registers, -, rfl⟩ := Program.ofBoard_eq_ok_iff.mp h
  rfl

/-- **Loops are compiled correctly**: a well-nested sequence of steps is a block, and if
it builds and assembles with an `end` after it, the machine halts at that `end`, with
registers and flags as the structured program of the block leaves them and all
counters zero, as long as no step chooses to write a counter. -/
theorem run_eq_exec_flow {board : Board} {p₀ p : Program} {steps : List Step} {words : List Word}
    (hboard : Program.ofBoard board = .ok p₀) (hnest : Script.Nested 0 steps)
    (hbuild : (Script.apply (steps ++ [.finish])).apply p₀ = (.ok (), p)) (hwords : p.assemble = .ok words) :
    (∃ b : Block, b.steps = steps) ∧ ∀ b : Block, b.steps = steps →
      (∀ s ∈ steps, ∀ c ∈ (b.flow p.labels p₀).counters, s.written? p.labels ≠ some c.place) →
        ∃ l k, p.lines.getLast? = some l ∧ l.instr = ⟨"end", [], false⟩ ∧
          (∀ limit, k ≤ limit → run (Code.ofWords words) limit (start 8) =
            (.ok k, { (b.flow p.labels p₀).exec (start 8) with pc := l.addr, halted := true })) ∧
          ∀ c ∈ (b.flow p.labels p₀).counters,
            ((b.flow p.labels p₀).exec (start 8)).reg? c.page c.addr = some 0 := by
  refine ⟨exists_block_iff.mpr hnest, fun b hb hown => ?_⟩
  subst hb
  obtain ⟨q, hsteps, hend⟩ := Script.apply_append_eq_ok_iff.mp hbuild
  obtain ⟨q', hfinish, hq'⟩ := Script.apply_cons_eq_ok_iff.mp hend
  cases hq'
  obtain ⟨hbuilt, -⟩ := Block.built p.labels hsteps
  -- the code of the block and the word of the end
  have hlaid₀ : p₀.Laid := .empty hboard
  have hedits := Step.edits_of_apply hfinish
  have hlaid := hlaid₀.edits hbuilt.edits
  have hp := Program.Loaded.of_assemble (hlaid.edits hedits) hwords
  have hat := hbuilt.at_flow hlaid₀ (hp.of_extends hlaid hedits.extends)
  have hlines : p.lines = q.lines ++ [⟨⟨"end", [], false⟩, q.nextAddr, q.lines.length, none⟩] :=
    congrArg (fun res => res.2.lines) hfinish.symm
  obtain ⟨hcode, -⟩ := hp.holdsAll_appended hlaid hedits.extends
  rw [Program.appended_eq hlines] at hcode
  -- the run through the block, and the step that halts
  have hd := hbuilt.disciplined (.ofBoard hboard) hown
  have hm : 8 ≤ (start 8).pages.size := by decide
  obtain ⟨k, hk⟩ := hat.steps hd hm
  have hhalt := step_of_holds (m := ((b.flow p.labels p₀).exec (start 8)).goto q.nextAddr) hcode.1 (execute_halt _)
  refine ⟨_, k + 1, by rw [hlines, List.getLast?_concat], rfl, fun limit hlimit => ?_, hat.counter_eq_zero hd hm⟩
  rw [Program.nextAddr_ofBoard hboard] at hk
  exact hk.run_eq rfl hhalt rfl hlimit

/-- A loop of four rounds, followed by a wait of two slots, in a loop of three; each
inner round adds five to a register. -/
def nestedLoops : Block :=
  .step (.reg 1 none (some "sum") .generic (some 0)) trivial <|
    .loop 3 none
      (.loop 4 none
        (.step (.instr "mathi" [.value 1, .value 0, .value 0, .op .add, .value 5] none)
          (show Instr.Straight _ by decide) .done)
        (.step (.wait 10) trivial .done))
      .done

/-- The program of the nested loops. -/
def nestedProgram : Program := bareProgram.after (nestedLoops.steps ++ [.finish])

/-- The nested loops add five twelve times, and leave both counters at zero. -/
theorem run_eq_exec_flow_nested :
    ∃ words k, nestedProgram.assemble = .ok words ∧ ∀ limit, k ≤ limit → ∃ m,
      run (Code.ofWords words) limit (start 8) = (.ok k, m) ∧ m.halted = true ∧ m.pc = 10 ∧
        m.reg? 1 0 = some 60 ∧ m.reg? 0 0 = some 0 ∧ m.reg? 0 1 = some 0 := by
  have hbuild : (Script.apply (nestedLoops.steps ++ [.finish])).apply bareProgram = (.ok (), nestedProgram) :=
    Script.apply_eq_ok_of_isOk (by decide +kernel)
  have hwords : nestedProgram.assemble = .ok [0x1920000000000000, 0x1900000000000003, 0x1900020000000004,
      0x1222000000000005, 0x1202421080000001, 0x3200000000000003, 0x150000000000000A, 0, 0x1202400080000001,
      0x3200000000000002, 0x3F00000000000000] := by decide +kernel
  obtain ⟨-, hrun⟩ := run_eq_exec_flow ofBoard_bareBoard (exists_block_iff.mp ⟨nestedLoops, rfl⟩) hbuild hwords
  obtain ⟨l, k, hl, -, hhalt, -⟩ := hrun nestedLoops rfl (by decide +kernel)
  have haddr : nestedProgram.lines.getLast?.map (·.addr) = some 10 := by decide +kernel
  have hregs : ((nestedLoops.flow nestedProgram.labels bareProgram).exec (start 8)).reg? 1 0 = some 60 ∧
      ((nestedLoops.flow nestedProgram.labels bareProgram).exec (start 8)).reg? 0 0 = some 0 ∧
      ((nestedLoops.flow nestedProgram.labels bareProgram).exec (start 8)).reg? 0 1 = some 0 := by decide +kernel
  rw [hl] at haddr
  generalize (nestedLoops.flow nestedProgram.labels bareProgram).exec (start 8) = m at hhalt hregs
  exact ⟨_, k, hwords, fun limit hlimit => ⟨_, hhalt limit hlimit, rfl, Option.some.inj haddr, hregs⟩⟩

end PulseAsm
