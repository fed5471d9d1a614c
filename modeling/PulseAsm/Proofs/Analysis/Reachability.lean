import PulseAsm.Proofs.Machine.Control
import PulseAsm.Proofs.Program.Addresses

/-!
# Reachable addresses

The search for reachable addresses stops with a set that contains address 0 and is
closed under the edges of the control flow (`Analysis.reachable_closed`): while it goes on,
what was seen leads to what was seen or queued (`Analysis.Searching`), and it ends when
the queue is empty.

The machine does not follow the edges: it executes the zero in the second slot of an
instruction as an instruction of its own, where an edge leads over it. On the image of a
program whose jumps go to labels the two keep together (`Program.Visits`): the machine
is at the address of a line that is reachable, or in the second slot of such a line, or
past the end.
-/

namespace PulseAsm

namespace Analysis

/-! ### The search -/

theorem mem_successors {es : List Edge} {a b : ℕ} : b ∈ successors es a ↔ ∃ e ∈ es, e.source = a ∧ e.target = b := by
  simp [successors, and_assoc]

/-- A search in progress: what was seen is in increasing order, and it leads to what was seen
or stands in the queue. -/
structure Searching (es : List Edge) (seen queue : List ℕ) : Prop where
  increasing : seen.Pairwise (· < ·)
  closed : ∀ e ∈ es, e.source ∈ seen → e.target ∈ seen ∨ e.target ∈ queue

namespace Searching

variable {es : List Edge} {seen queue : List ℕ} {a : ℕ}

/-- An address that was seen is passed over. -/
theorem pass (h : Searching es seen (a :: queue)) (ha : a ∈ seen) : Searching es seen queue := by
  refine ⟨h.increasing, fun e he hsource => ?_⟩
  rcases h.closed e he hsource with hseen | hqueue
  · exact Or.inl hseen
  · rcases List.mem_cons.mp hqueue with htarget | hqueue
    · exact Or.inl (htarget ▸ ha)
    · exact Or.inr hqueue

/-- What a new address leads to was seen, or is put behind the queue. -/
theorem visit (h : Searching es seen (a :: queue)) :
    Searching es (insertIncreasing a seen)
      (queue ++ (successors es a).filter (· ∉ insertIncreasing a seen)) := by
  refine ⟨pairwise_insertIncreasing h.increasing a, fun e he hsource => ?_⟩
  by_cases hfound : e.target ∈ insertIncreasing a seen
  · exact Or.inl hfound
  · refine Or.inr (List.mem_append.mpr ?_)
    rw [mem_insertIncreasing] at hsource
    rcases hsource with hsource | hsource
    · have hsucc : e.target ∈ successors es a := mem_successors.mpr ⟨e, he, hsource, rfl⟩
      exact Or.inr (List.mem_filter.mpr ⟨hsucc, decide_eq_true hfound⟩)
    · rw [mem_insertIncreasing] at hfound
      rcases h.closed e he hsource with hseen | hqueue
      · exact absurd (Or.inr hseen) hfound
      · exact Or.inl ((List.mem_cons.mp hqueue).resolve_left fun htarget => hfound (Or.inl htarget))

/-- The search ends with an empty queue, and has then seen all that was seen and queued. -/
theorem search (h : Searching es seen queue) :
    Searching es (Analysis.search es seen queue) [] ∧
      ∀ a, a ∈ seen ∨ a ∈ queue → a ∈ Analysis.search es seen queue := by
  fun_induction Analysis.search es seen queue with
  | case1 seen => exact ⟨h, fun a ha => ha.resolve_right List.not_mem_nil⟩
  | case2 seen a queue ha ih =>
    obtain ⟨hdone, hall⟩ := ih (h.pass ha)
    refine ⟨hdone, fun b hb => hall b ?_⟩
    rcases hb with hb | hb
    · exact Or.inl hb
    · rcases List.mem_cons.mp hb with rfl | hb
      · exact Or.inl ha
      · exact Or.inr hb
  | case3 seen a queue _ found ih =>
    obtain ⟨hdone, hall⟩ := ih h.visit
    refine ⟨hdone, fun b hb => hall b ?_⟩
    rw [mem_insertIncreasing, List.mem_append]
    rcases hb with hb | hb
    · exact Or.inl (Or.inr hb)
    · exact (List.mem_cons.mp hb).imp Or.inl Or.inl

end Searching

/-- Address 0 is reachable, and so is what a reachable address leads to. -/
theorem reachable_closed (es : List Edge) {size : ℕ} (hsize : 0 < size) :
    0 ∈ reachable size es ∧ ∀ e ∈ es, e.source ∈ reachable size es → e.target ∈ reachable size es := by
  have hstart : Searching es [] [0] := ⟨.nil, by simp⟩
  obtain ⟨hdone, hall⟩ := hstart.search
  rw [reachable, if_neg (Nat.ne_of_gt hsize)]
  exact ⟨hall 0 (by simp), fun e he hsource => (hdone.closed e he hsource).resolve_right List.not_mem_nil⟩

/-- The edges of an instruction that was found are among all edges. -/
theorem mem_edges_of_found {size : ℕ} {slots : List Slot} {q : ℕ × Instr} (hq : q ∈ found slots) {e : Edge}
    (he : e ∈ instrEdges size q.1 q.2) : e ∈ edges size slots := by
  obtain ⟨s, hs, hq⟩ := List.mem_filterMap.mp hq
  obtain ⟨i, hi, rfl⟩ := Option.map_eq_some_iff.mp hq
  refine List.mem_flatMap.mpr ⟨s, hs, ?_⟩
  rw [hi]
  exact he

end Analysis

/-! ### Lines of a program -/

namespace Program

open Analysis

/-- The address operand of every jump is a label. -/
def JumpsToLabels (p : Program) : Prop :=
  ∀ l ∈ p.lines, ∀ k ∈ addrOperands l.instr.mnemonic, ∃ name, l.instr.operands[k]? = some (.label name)

/-- The instruction of a line as it is read back from the image. -/
def imageInstr (p : Program) (l : Line) : Instr := (l.instr.withAddresses p.labels).folded

theorem operand_imageInstr (p : Program) {l : Line} {k : ℕ} {name : String}
    (h : l.instr.operands[k]? = some (.label name)) :
    (p.imageInstr l).operands[k]? = some ((Operand.label name).withAddress p.labels) := by
  have hfolded : ((Operand.label name).withAddress p.labels).folded = (Operand.label name).withAddress p.labels := by
    cases hlookup : p.labels.lookup name with
    | none => simp [Operand.withAddress, hlookup, Operand.folded]
    | some a => simp [Operand.withAddress, hlookup, Operand.folded, foldedImm_of_nonneg]
  simp only [imageInstr, Instr.folded, List.getElem?_mapIdx]
  simp [Instr.withAddresses, h, hfolded]

/-- A jump to a label has the address of the label as its target. -/
theorem exists_label_of_jumpTarget? {p : Program} (hlabels : p.JumpsToLabels) {l : Line} (hl : l ∈ p.lines) {t : ℕ}
    (ht : (p.imageInstr l).jumpTarget? = some t) : ∃ name, (name, t) ∈ p.labels := by
  obtain ⟨-, k, hk, ho⟩ := Instr.exists_operand_of_jumpTarget? ht
  obtain ⟨name, hname⟩ := hlabels l hl k hk
  rw [operand_imageInstr p hname, Option.some.injEq] at ho
  cases hlookup : p.labels.lookup name with
  | none => simp [Operand.withAddress, hlookup] at ho
  | some a =>
    rw [Operand.withAddress, hlookup, Operand.value.injEq, Nat.cast_inj] at ho
    exact ⟨name, mem_of_lookup_eq_some (ho ▸ hlookup)⟩

section Assembled

variable {p : Program} {words : List Word} (hp : p.Laid) (h : p.assemble = .ok words)

include hp h

theorem length_of_assemble : words.length = p.nextAddr := by rw [length_assemble h, hp.next]

theorem addr_lt_length {l : Line} (hl : l ∈ p.lines) : l.addr < words.length := by
  rw [length_of_assemble hp h]
  exact hp.addr_lt hl

/-- The sweep finds the lines at their addresses. -/
theorem found_sweep_of_assemble : found (sweep words) = p.lines.map fun l => (l.addr, p.imageInstr l) := by
  obtain ⟨is, blocks, his, hblocks, rfl⟩ := assemble_eq_ok_iff.mp h
  rw [sweep, found_sweepFrom_flatten hblocks, placeFrom_eq_mapIdx (mnemonics_of_resolve his),
    eq_map_of_mapM_resolve his]
  refine List.ext_getElem? ?_
  intro k
  simp only [List.getElem?_mapIdx, List.getElem?_map, Option.map_map, Nat.zero_add]
  cases hk : p.lines[k]? with
  | none => rfl
  | some l => simp [hp.addr k l hk, imageInstr]

theorem mem_found_of_assemble {l : Line} (hl : l ∈ p.lines) : (l.addr, p.imageInstr l) ∈ found (sweep words) := by
  rw [found_sweep_of_assemble hp h]
  exact List.mem_map_of_mem hl

theorem code_at_line {l : Line} (hl : l ∈ p.lines) :
    (Machine.Code.ofWords words)[l.addr]? = some (.ok (p.imageInstr l)) ∧
      (slotsOf l.instr.mnemonic = 2 → words[l.addr + 1]? = some 0) := by
  obtain ⟨pre, post, hlines⟩ := List.append_of_mem hl
  unfold Program.assemble at h
  rw [hlines] at h
  obtain ⟨w, henc, hget, hpad⟩ := getElem?_assemble h
  rw [hp.addr_of_eq_append hlines]
  refine ⟨?_, hpad⟩
  rw [Machine.Code.getElem?_ofWords, hget, Option.map_some, decode_of_encode henc]
  rfl

end Assembled

/-- Behind a line there is another line or the end. -/
theorem Laid.follow {p : Program} (hp : p.Laid) {l : Line} (hl : l ∈ p.lines) :
    (∃ l' ∈ p.lines, l'.addr = l.addr + slotsOf l.instr.mnemonic) ∨ p.nextAddr = l.addr + slotsOf l.instr.mnemonic := by
  obtain ⟨pre, post, hlines⟩ := List.append_of_mem hl
  rw [hp.addr_of_eq_append hlines]
  cases post with
  | nil =>
    refine Or.inr ?_
    rw [hp.next, hlines, slotSum_append]
    simp
  | cons l' post =>
    refine Or.inl ⟨l', by simp [hlines], ?_⟩
    have hlines' : p.lines = (pre ++ [l]) ++ l' :: post := by simp [hlines]
    rw [hp.addr_of_eq_append hlines', slotSum_append]
    simp

/-! ### The machine and the edges -/

/-- Where the machine may be, if the addresses of `reachable` are reachable: at a
reachable line, in the second slot of one, or past the end. -/
inductive Visits (p : Program) (reachable : List ℕ) : ℕ → Prop where
  | line {l : Line} (hl : l ∈ p.lines) (hr : l.addr ∈ reachable) : p.Visits reachable l.addr
  | second {l : Line} (hl : l ∈ p.lines) (hslots : slotsOf l.instr.mnemonic = 2) (hr : l.addr ∈ reachable) :
      p.Visits reachable (l.addr + 1)
  | past {pc : ℕ} (h : p.nextAddr ≤ pc) : p.Visits reachable pc

namespace Visits

variable {p : Program} {words : List Word} (hp : p.Laid) (h : p.assemble = .ok words)

include hp h

/-- Edges lead from reachable lines to reachable addresses. -/
theorem mem_reachable_of_edge {l : Line} (hl : l ∈ p.lines) (hr : l.addr ∈ (analyze words).reachable) {e : Edge}
    (he : e ∈ instrEdges words.length l.addr (p.imageInstr l)) (hsource : e.source = l.addr) :
    e.target ∈ (analyze words).reachable := by
  have hsize : 0 < words.length := Nat.zero_lt_of_lt (addr_lt_length hp h hl)
  exact (reachable_closed _ hsize).2 e (mem_edges_of_found (mem_found_of_assemble hp h hl) he) (hsource ▸ hr)

/-- Going on from all slots of a line. -/
theorem next {l : Line} (hl : l ∈ p.lines) (hr : l.addr ∈ (analyze words).reachable) (hend : l.instr.mnemonic ≠ "end") :
    p.Visits (analyze words).reachable (l.addr + slotsOf l.instr.mnemonic) := by
  rcases hp.follow hl with ⟨l', hl', haddr⟩ | hlast
  · have hlt : l'.addr < words.length := addr_lt_length hp h hl'
    have hedge : ⟨l.addr, l'.addr, .fallthrough⟩ ∈ instrEdges words.length l.addr (p.imageInstr l) := by
      have hm : (p.imageInstr l).mnemonic = l.instr.mnemonic := rfl
      rw [haddr] at hlt ⊢
      simp [instrEdges, hm, hend, hlt]
    rw [← haddr]
    exact .line hl' (mem_reachable_of_edge hp h hl hr hedge rfl)
  · exact .past (Nat.le_of_eq hlast)

theorem jump (hlabels : p.JumpsToLabels) {l : Line} (hl : l ∈ p.lines) (hr : l.addr ∈ (analyze words).reachable) {t : ℕ}
    (ht : (p.imageInstr l).jumpTarget? = some t) : p.Visits (analyze words).reachable t := by
  obtain ⟨name, hname⟩ := exists_label_of_jumpTarget? hlabels hl ht
  rcases hp.label name t hname with ⟨l', hl', rfl⟩ | rfl
  · have hedge : ⟨l.addr, l'.addr, .condBranch⟩ ∈ instrEdges words.length l.addr (p.imageInstr l) := by
      simp [instrEdges, ht]
    exact .line hl' (mem_reachable_of_edge hp h hl hr hedge rfl)
  · exact .past (Nat.le_refl _)

/-- The first line is at address 0. -/
theorem start : p.Visits (analyze words).reachable 0 := by
  cases hlines : p.lines with
  | nil =>
    refine .past ?_
    rw [hp.next, hlines]
    exact Nat.le_refl _
  | cons l lines =>
    have hl : l ∈ p.lines := by simp [hlines]
    have hzero : l.addr = 0 := by rw [hp.addr 0 l (by simp [hlines])]; rfl
    have hsize : 0 < words.length := Nat.zero_lt_of_lt (addr_lt_length hp h hl)
    exact hzero ▸ .line hl (hzero ▸ (reachable_closed _ hsize).1)

/-- Every word of the image keeps the machine at reachable lines. -/
theorem passesOn (hlabels : p.JumpsToLabels) :
    (Machine.Code.ofWords words).PassesOn (p.Visits (analyze words).reachable) := by
  intro pc i next hget hpc hpasses
  cases hpc with
  | @line l hl hr =>
    obtain ⟨hcode, -⟩ := code_at_line hp h hl
    have hi : i = p.imageInstr l := by
      rw [hcode] at hget
      exact (Except.ok.inj (Option.some.inj hget)).symm
    subst hi
    cases hpasses with
    | stay => exact .line hl hr
    | next hend =>
      -- the next word is the next line's, unless this line has a second slot
      rcases slotsOf_cases l.instr.mnemonic with hslots | hslots
      · have hnext := Visits.next hp h hl hr hend
        rwa [hslots] at hnext
      · exact .second hl hslots hr
    | jump ht => exact jump hp h hlabels hl hr ht
  | @second l hl hslots hr =>
    -- the zero is executed as an instruction that does nothing
    have hi : i = ⟨"nop", [], false⟩ := by
      rw [Machine.Code.getElem?_ofWords, (code_at_line hp h hl).2 hslots] at hget
      exact (Except.ok.inj (Option.some.inj hget)).symm
    subst hi
    cases hpasses with
    | stay => exact .second hl hslots hr
    | next =>
      have hend : l.instr.mnemonic ≠ "end" := by
        intro hend
        rw [hend] at hslots
        exact absurd hslots (by decide)
      have hnext := Visits.next hp h hl hr hend
      rwa [hslots] at hnext
    | jump ht => cases ht
  | past hle =>
    rw [Machine.Code.getElem?_ofWords, List.getElem?_eq_none (length_of_assemble hp h ▸ hle)] at hget
    cases hget

/-- Within the image the machine is at a reachable address or in a second slot. -/
theorem reachable_or_second {pc : ℕ} (hpc : p.Visits (analyze words).reachable pc) (hlt : pc < words.length) :
    pc ∈ (analyze words).reachable ∨
      ∃ q ∈ found (analyze words).slots, pc = q.1 + 1 ∧ q.1 ∈ (analyze words).reachable ∧
        slotsOf q.2.mnemonic = 2 ∧ words[pc]? = some 0 := by
  cases hpc with
  | line hl hr => exact Or.inl hr
  | @second l hl hslots hr =>
    have hfound : (l.addr, p.imageInstr l) ∈ found (analyze words).slots := mem_found_of_assemble hp h hl
    exact Or.inr ⟨_, hfound, rfl, hr, hslots, (code_at_line hp h hl).2 hslots⟩
  | past hle =>
    rw [length_of_assemble hp h] at hlt
    omega

/-- No instruction that is found stands in a second slot. -/
theorem ne_of_unreachable {pc : ℕ} (hpc : p.Visits (analyze words).reachable pc) {s : Slot}
    (hs : s ∈ (analyze words).slots) (hinstr : s.instr.isSome) (hs' : s.addr ∉ (analyze words).reachable) :
    pc ≠ s.addr := by
  obtain ⟨i, hi⟩ := Option.isSome_iff_exists.mp hinstr
  have hfound : (s.addr, i) ∈ found (sweep words) := List.mem_filterMap.mpr ⟨s, hs, by rw [hi]; rfl⟩
  rw [found_sweep_of_assemble hp h] at hfound
  obtain ⟨l, hl, heq⟩ := List.mem_map.mp hfound
  have haddr : l.addr = s.addr := congrArg Prod.fst heq
  rintro rfl
  generalize ha : s.addr = a at hpc hs' haddr
  cases hpc with
  | line _ hr => exact hs' hr
  | second hl' hslots _ => exact (hp.not_inside hl' hslots).1 l hl haddr
  | past hle =>
    have hlt := hp.addr_lt hl
    omega

end Visits

end Program

/-- **Runs stay at reachable addresses**: let a program that can be built assemble, with a
label as the address operand of each of its jumps, and let its image be analysed. A run
of the machine from address 0, of any length and with any registers and flags, is then
at a reachable address, in the second slot of an instruction at a reachable address, or
past the end of the image; so it never executes an instruction that the analysis counts
as unreachable. -/
theorem run_at_reachable {board : Board} {p : Program} (hp : Reachable board p) (hlabels : p.JumpsToLabels)
    {words : List Word} (h : p.assemble = .ok words) :
    ∃ image, Image.ofBytes? (Image.toBytes words) = some image ∧
      ∀ (m : Machine) (limit pc : ℕ), m.pc = 0 → pc = (Machine.run (.ofWords image) limit m).2.pc →
        (pc < image.length →
          pc ∈ (analyze image).reachable ∨
            ∃ q ∈ Analysis.found (analyze image).slots, pc = q.1 + 1 ∧ q.1 ∈ (analyze image).reachable ∧
              slotsOf q.2.mnemonic = 2 ∧ image[pc]? = some 0) ∧
        ∀ s ∈ (analyze image).slots, s.instr.isSome → s.addr ∉ (analyze image).reachable → pc ≠ s.addr := by
  have hlaid := hp.laid
  refine ⟨words, Image.ofBytes?_toBytes words, ?_⟩
  intro m limit pc hm hpc
  have hvisits : p.Visits (analyze words).reachable pc := by
    rw [hpc]
    refine Machine.run_pc (Program.Visits.passesOn hlaid h hlabels) limit ?_
    rw [hm]
    exact .start hlaid h
  exact ⟨hvisits.reachable_or_second hlaid h, fun s hs => hvisits.ne_of_unreachable hlaid h hs⟩

/-- A jump over a wait, which the machine need not take, and a wait behind the end, which
no run gets to: the analysis counts it as unreachable. -/
theorem run_at_reachable_over_wait :
    ∃ p words, Reachable bareBoard p ∧ p.JumpsToLabels ∧ p.assemble = .ok words ∧
      (analyze words).reachable = [0, 1, 3] ∧
      (Machine.run (.ofWords words) 2 { Machine.start 8 with flags := ⟨true, false⟩ }).2.pc = 2 ∧
      (∃ q ∈ Analysis.found (analyze words).slots, 2 = q.1 + 1 ∧ q.1 ∈ (analyze words).reachable ∧
        slotsOf q.2.mnemonic = 2 ∧ words[2]? = some 0) ∧
      ∀ (m : Machine) (limit : ℕ), m.pc = 0 → (Machine.run (.ofWords words) limit m).2.pc ≠ 4 := by
  have hreach := (Reachable.start ofBoard_bareBoard).after
    [.instr "jnz" [.label "STOP"] none, .wait 5, .label "STOP", .finish, .wait 6]
  have hlabels : Program.JumpsToLabels (bareProgram.after
      [.instr "jnz" [.label "STOP"] none, .wait 5, .label "STOP", .finish, .wait 6]) := by
    intro l hl k hk
    have hlines : ∀ l ∈ (bareProgram.after [.instr "jnz" [.label "STOP"] none, .wait 5, .label "STOP", .finish,
        .wait 6]).lines, ∀ k ∈ addrOperands l.instr.mnemonic, l.instr.operands[k]? = some (.label "STOP") := by decide
    exact ⟨"STOP", hlines l hl k hk⟩
  have hwords : Program.assemble (bareProgram.after
      [.instr "jnz" [.label "STOP"] none, .wait 5, .label "STOP", .finish, .wait 6]) =
        .ok [0x3200000000000003, 0x1500000000000005, 0, 0x3F00000000000000, 0x1500000000000006, 0] := by rfl
  obtain ⟨image, himage, hall⟩ := run_at_reachable hreach hlabels hwords
  rw [Image.ofBytes?_toBytes, Option.some.injEq] at himage
  subst himage
  have hpc : (Machine.run (.ofWords [0x3200000000000003, 0x1500000000000005, 0, 0x3F00000000000000, 0x1500000000000006,
      0]) 2 { Machine.start 8 with flags := ⟨true, false⟩ }).2.pc = 2 := by rfl
  have hfound : (analyze [0x3200000000000003, 0x1500000000000005, 0, 0x3F00000000000000, 0x1500000000000006,
      0]).reachable = [0, 1, 3] := by decide +kernel
  refine ⟨_, _, hreach, hlabels, hwords, hfound, hpc, ?_, ?_⟩
  · refine ((hall _ 2 2 rfl hpc.symm).1 (by decide)).resolve_left ?_
    rw [hfound]
    decide
  · intro m limit hm
    refine (hall m limit _ hm rfl).2 _ (List.mem_of_getElem? (i := 4) rfl) rfl ?_
    rw [hfound]
    decide

end PulseAsm
