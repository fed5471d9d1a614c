import PulseAsm.Proofs.Machine.Flow
import PulseAsm.Proofs.Program.Growth

/-!
# Blocks of steps

A block is a sequence of building steps whose loops are properly nested and whose
other steps emit neither a jump nor an end (`Block`). Blocks are exactly the step
sequences in which every loop that is opened is closed (`exists_block_iff`).

`Block.flow` is the structured program that a block builds on a program: the
instructions that each step appends, and for each loop the counter that was handed
out for it. `Block.Built` follows the building of a block step by step, and every
block whose steps succeed is built in this way (`Block.built`).
-/

namespace PulseAsm

open Machine

/-- The step is not about loops, and emits neither a jump nor an end. -/
def Step.Straight : Step → Prop
  | .openLoop .. | .closeLoop | .finish => False
  | .instr mnemonic operands _ => Instr.Straight ⟨mnemonic, operands, false⟩
  | _ => True

/-- Steps with properly nested loops and no other jumps. -/
inductive Block where
  /-- Nothing more. -/
  | done
  /-- A step, and what follows. -/
  | step (s : Step) (hs : s.Straight) (next : Block)
  /-- A loop with its body, and what follows. -/
  | loop (n : ℕ) (name : Option String) (body next : Block)

/-- The steps of a block. -/
def Block.steps : Block → List Step
  | done => []
  | step s _ next => s :: next.steps
  | loop n name body next => .openLoop n name :: (body.steps ++ .closeLoop :: next.steps)

/-- The steps close `depth` loops besides those that they open, and all others are
straight. -/
def Script.Nested : ℕ → List Step → Prop
  | depth, [] => depth = 0
  | depth, .openLoop .. :: steps => Nested (depth + 1) steps
  | 0, .closeLoop :: _ => False
  | depth + 1, .closeLoop :: steps => Nested depth steps
  | depth, s :: steps => s.Straight ∧ Nested depth steps

theorem Script.nested_cons {s : Step} (hs : s.Straight) (depth : ℕ) (steps : List Step) :
    Nested depth (s :: steps) ↔ s.Straight ∧ Nested depth steps := by
  cases s <;> simp_all [Step.Straight, Nested]

/-- The steps of a block leave the nesting as it is. -/
theorem Block.nested_steps_append (b : Block) (depth : ℕ) (rest : List Step) :
    Script.Nested depth (b.steps ++ rest) ↔ Script.Nested depth rest := by
  induction b generalizing depth rest with
  | done => rfl
  | step s hs next ih => rw [steps, List.cons_append, Script.nested_cons hs, ih, and_iff_right hs]
  | loop n name body next ihb ihn =>
    rw [steps, List.cons_append, List.append_assoc, List.cons_append, Script.Nested, ihb, Script.Nested, ihn]

/-- Nested steps are a block, and a further block after each step that closes a loop
from outside. -/
theorem Script.Nested.exists_blocks {depth : ℕ} {steps : List Step} (h : Nested depth steps) :
    ∃ (b : Block) (bs : List Block), bs.length = depth ∧
      steps = b.steps ++ bs.flatMap fun b => .closeLoop :: b.steps := by
  fun_induction Nested depth steps with
  | case1 depth => exact ⟨.done, [], h.symm, rfl⟩
  | case2 depth n name steps ih =>
    -- the first two blocks are the body of the loop and what follows it
    obtain ⟨body, bs, hlen, rfl⟩ := ih h
    obtain ⟨next, bs, rfl⟩ := List.exists_cons_of_length_eq_add_one hlen
    exact ⟨.loop n name body next, bs, by simpa using hlen, by simp [Block.steps]⟩
  | case3 => cases h
  | case4 depth steps ih =>
    obtain ⟨b, bs, rfl, rfl⟩ := ih h
    exact ⟨.done, b :: bs, rfl, rfl⟩
  | case5 depth s steps _ _ _ ih =>
    obtain ⟨b, bs, hlen, rfl⟩ := ih h.2
    exact ⟨.step s h.1 b, bs, hlen, rfl⟩

/-- Blocks are the step sequences in which every loop that is opened is closed. -/
theorem exists_block_iff {steps : List Step} : (∃ b : Block, b.steps = steps) ↔ Script.Nested 0 steps := by
  constructor
  · rintro ⟨b, rfl⟩
    rw [← List.append_nil b.steps, b.nested_steps_append]
    rfl
  · intro h
    obtain ⟨b, bs, hlen, rfl⟩ := h.exists_blocks
    rw [List.eq_nil_of_length_eq_zero hlen]
    exact ⟨b, by simp⟩

/-- The instructions that one program has beyond another. -/
def Program.appended (p q : Program) : List Instr := (q.lines.drop p.lines.length).map (·.instr)

theorem Program.appended_eq {p q : Program} {new : List Line} (h : q.lines = p.lines ++ new) :
    p.appended q = new.map (·.instr) := by
  rw [appended, h, List.drop_left]

/-- The structured program that a block builds on a program, with the labels of its
instructions replaced by the addresses of a table. -/
def Block.flow (labels : LabelTable) : Block → Program → Flow
  | done, _ => .done
  | step s _ next, p =>
    .run ((p.appended (p.after [s])).map (·.withAddresses labels)) (next.flow labels (p.after [s]))
  | loop n name body next, p =>
    let start := p.after [.openLoop n name]
    match start.loops with
    | [] => .done
    | c :: _ => .loop c n (body.flow labels start) (next.flow labels (start.after (body.steps ++ [.closeLoop])))

/-! ### Steps that succeed -/

section Apply

variable {p q : Program} {s : Step} {steps steps' : List Step}

theorem Script.apply_nil : (Script.apply []).apply p = (.ok (), p) := rfl

theorem Script.apply_cons_eq_ok_iff :
    (Script.apply (s :: steps)).apply p = (.ok (), q) ↔
      ∃ r, s.apply.apply p = (.ok (), r) ∧ (Script.apply steps).apply r = (.ok (), q) := by
  have hcons : (Script.apply (s :: steps)).apply p = (s.apply >>= fun _ => Script.apply steps).apply p := rfl
  rw [hcons, Build.apply_bind_eq_ok_iff]
  exact ⟨fun ⟨_, r, hs, h⟩ => ⟨r, hs, h⟩, fun ⟨r, hs, h⟩ => ⟨(), r, hs, h⟩⟩

theorem Script.apply_append_eq_ok_iff :
    (Script.apply (steps ++ steps')).apply p = (.ok (), q) ↔
      ∃ r, (Script.apply steps).apply p = (.ok (), r) ∧ (Script.apply steps').apply r = (.ok (), q) := by
  induction steps generalizing p with
  | nil =>
    rw [List.nil_append, Script.apply_nil]
    exact ⟨fun h => ⟨p, rfl, h⟩, fun ⟨r, hr, h⟩ => by cases hr; exact h⟩
  | cons s steps ih =>
    simp only [List.cons_append, Script.apply_cons_eq_ok_iff, ih]
    exact ⟨fun ⟨r, hs, r', h⟩ => ⟨r', ⟨r, hs, h.1⟩, h.2⟩, fun ⟨r', ⟨r, hs, h⟩, h'⟩ => ⟨r, hs, r', h, h'⟩⟩

theorem Program.after_of_apply (h : (Script.apply steps).apply p = (.ok (), q)) : p.after steps = q := by
  induction steps generalizing p with
  | nil => exact congrArg Prod.snd h
  | cons s steps ih =>
    obtain ⟨r, hs, h⟩ := Script.apply_cons_eq_ok_iff.mp h
    have hafter : p.after (s :: steps) = (s.apply.apply p).2.after steps := rfl
    rw [hafter, hs, ih h]

theorem Script.apply_eq_ok_of_isOk (h : ((Script.apply steps).apply p).1.isOk = true) :
    (Script.apply steps).apply p = (.ok (), p.after steps) := by
  cases hres : (Script.apply steps).apply p with
  | mk res q =>
    rw [hres] at h
    cases res with
    | error e => cases h
    | ok _ => rw [Program.after_of_apply hres]

end Apply

/-! ### Loops that are opened and closed -/

namespace Build

open Text

variable {p q : Program}

/-- What opening a loop does to a program. -/
theorem openLoop_eq_ok {n : ℕ} {name : Option String} {c : Register} (h : (openLoop n name).apply p = (.ok c, q)) :
    ∃ (r : RegRequest) (registers : RegisterFile) (steps : List LoadStep) (new : List Line),
      p.registers.Allocates r c registers ∧ loadSteps n = .ok steps ∧
      new.map (·.instr) = steps.map (loadInstr c.page c.addr) ∧ p.labels.lookup (upperCase c.name) = none ∧
      q = { p with
        lines := p.lines ++ new
        labels := p.labels ++ [(upperCase c.name, p.nextAddr + steps.length)]
        nextAddr := p.nextAddr + steps.length
        registers
        loops := c :: p.loops
        loopsOpened := p.loopsOpened + 1 } := by
  unfold openLoop at h
  rw [apply_get_bind] at h
  obtain ⟨reg, p₁, hreg, h⟩ := apply_bind_eq_ok_iff.mp h
  obtain ⟨_, p₂, hlabel, h⟩ := apply_bind_eq_ok_iff.mp h
  obtain ⟨_, p₃, henter, h⟩ := apply_bind_eq_ok_iff.mp h
  cases henter
  cases h
  obtain ⟨registers, halloc, ⟨hnone, -⟩ | ⟨v, k, hinit, hload⟩⟩ := newReg_eq_ok hreg
  · cases hnone
  · cases hinit
    obtain ⟨steps, new, hsteps, rfl, hnew, -, rfl⟩ := lines_of_load hload
    obtain ⟨hfree, rfl⟩ := label_eq_ok hlabel
    have hname := halloc.name
    simp only [RegisterFile.chooseName] at hname
    rw [← hname] at hfree ⊢
    exact ⟨_, registers, steps, new, halloc, hsteps, hnew, hfree, rfl⟩

/-- What closing a loop does to a program. -/
theorem closeLoop_eq_ok (h : closeLoop.apply p = (.ok (), q)) :
    ∃ (c : Register) (rest : List Register) (new : List Line), p.loops = c :: rest ∧
      new.map (·.instr) = [countDownInstr c, branchInstr c] ∧
      q = { p with lines := p.lines ++ new, nextAddr := p.nextAddr + 2, loops := rest } := by
  unfold closeLoop at h
  rw [apply_get_bind] at h
  cases hloops : p.loops with
  | nil => simp [hloops] at h
  | cons c rest =>
    simp only [hloops] at h
    cases h
    refine ⟨c, rest, [⟨countDownInstr c, p.nextAddr, p.lines.length, some s!"{c.name} -= 1"⟩,
      ⟨branchInstr c, p.nextAddr + 1, p.lines.length + 1, none⟩], rfl, rfl, ?_⟩
    simp [Program.push, countDownInstr, branchInstr]

end Build

/-! ### Blocks that are built -/

/-- The block, built on one program, leads to another, and its structured program is
the given one. -/
inductive Block.Built (labels : LabelTable) : Block → Program → Program → Flow → Prop where
  | done (p : Program) : Built labels .done p p .done
  | step {p r q : Program} {s : Step} (hs : s.Straight) {next : Block} {flow : Flow}
      (hstep : s.apply.apply p = (.ok (), r)) (hnext : Built labels next r q flow) :
      Built labels (.step s hs next) p q (.run ((p.appended r).map (·.withAddresses labels)) flow)
  | loop {p p₁ p₂ p₃ q : Program} {n : ℕ} {name : Option String} {c : Register} {body next : Block}
      {flow flow' : Flow} (hopen : (Build.openLoop n name).apply p = (.ok c, p₁))
      (hbody : Built labels body p₁ p₂ flow) (hloops : p₂.loops = p₁.loops)
      (hclose : Build.closeLoop.apply p₂ = (.ok (), p₃)) (hnext : Built labels next p₃ q flow') :
      Built labels (.loop n name body next) p q (.loop c n flow flow')

theorem Step.Straight.loops_eq {s : Step} (hs : s.Straight) (p : Program) :
    (s.apply.apply p).2.loops = p.loops := by
  refine (s.edits p).loops_eq (fun reg h => ?_) fun reg h => ?_
  · cases h
    exact hs
  · cases h
    exact hs

/-- A block whose steps succeed is built, and leaves the open loops as they were. -/
theorem Block.built {b : Block} {p q : Program} (labels : LabelTable)
    (h : (Script.apply b.steps).apply p = (.ok (), q)) : b.Built labels p q (b.flow labels p) ∧ q.loops = p.loops := by
  induction b generalizing p q with
  | done =>
    cases h
    exact ⟨.done p, rfl⟩
  | step s hs next ih =>
    obtain ⟨r, hstep, h⟩ := Script.apply_cons_eq_ok_iff.mp h
    obtain ⟨hbuilt, hloops⟩ := ih h
    have hafter : p.after [s] = r := congrArg Prod.snd hstep
    have hkeep := hs.loops_eq p
    rw [hstep] at hkeep
    rw [flow, hafter]
    exact ⟨.step hs hstep hbuilt, hloops.trans hkeep⟩
  | loop n name body next ihbody ihnext =>
    obtain ⟨p₁, hopen, h⟩ := Script.apply_cons_eq_ok_iff.mp h
    obtain ⟨p₂, hbody, h⟩ := Script.apply_append_eq_ok_iff.mp h
    obtain ⟨p₃, hclose, hnext⟩ := Script.apply_cons_eq_ok_iff.mp h
    have hafter₁ : p.after [.openLoop n name] = p₁ := congrArg Prod.snd hopen
    have hafter₃ : p₁.after (body.steps ++ [.closeLoop]) = p₃ :=
      Program.after_of_apply (Script.apply_append_eq_ok_iff.mpr
        ⟨p₂, hbody, Script.apply_cons_eq_ok_iff.mpr ⟨p₃, hclose, rfl⟩⟩)
    obtain ⟨c, hopen⟩ := Build.apply_discard_eq_ok_iff.mp hopen
    obtain ⟨hbuilt, hloops⟩ := ihbody hbody
    obtain ⟨hbuilt', hloops'⟩ := ihnext hnext
    have hc : p₁.loops = c :: p.loops := by
      obtain ⟨r, registers, steps, new, -, -, -, -, rfl⟩ := Build.openLoop_eq_ok hopen
      rfl
    have hrest : p₃.loops = p.loops := by
      obtain ⟨c', rest, new, hrest, -, rfl⟩ := Build.closeLoop_eq_ok hclose
      rw [hloops, hc] at hrest
      cases hrest
      rfl
    simp only [flow, hafter₁, hc, hafter₃]
    exact ⟨.loop hopen hbuilt hloops hclose hbuilt', hloops'.trans hrest⟩

end PulseAsm
