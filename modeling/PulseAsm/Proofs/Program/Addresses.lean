import PulseAsm.Proofs.Image
import PulseAsm.Proofs.Program.Edits

/-!
# Addresses

A program counts addresses while it is built, and the assembler lays words out
once it is done; the two agree. The invariant is `Program.Laid`: every line knows
how many lines and how many slots come before it, and every label is bound to the
address of a line or to the next address. Edits that do not append or bind leave
it alone, so it holds of every program that can be built, failed steps included.
-/

namespace PulseAsm

/-- The addresses of a program add up: lines are numbered in order, the address of
a line is the sum of the slots before it, and labels stand where lines start. -/
structure Program.Laid (p : Program) : Prop where
  number : ∀ (k : ℕ) (l : Line), p.lines[k]? = some l → l.number = k
  addr : ∀ (k : ℕ) (l : Line), p.lines[k]? = some l → l.addr = slotSum (p.lines.take k)
  next : p.nextAddr = slotSum p.lines
  label : ∀ name a, (name, a) ∈ p.labels → (∃ l ∈ p.lines, l.addr = a) ∨ a = p.nextAddr

namespace Program.Laid

theorem empty {board : Board} {p : Program} (h : Program.ofBoard board = .ok p) : p.Laid := by
  obtain ⟨-, registers, -, rfl⟩ := Program.ofBoard_eq_ok_iff.mp h
  exact ⟨by simp, by simp, rfl, by simp⟩

/-- An appended line stands at the next address, and so do the labels that were
bound there. -/
theorem push {p : Program} {i : Instr} {d : Descriptor} (hd : Descriptor.ofMnemonic? i.mnemonic = some d)
    (comment : Option String) (h : p.Laid) : (p.push i d.slots comment).Laid := by
  have hcase : ∀ k l, (p.push i d.slots comment).lines[k]? = some l →
      p.lines[k]? = some l ∨ k = p.lines.length ∧ l = ⟨i, p.nextAddr, p.lines.length, comment⟩ := by
    intro k l hk
    simp only [Program.push] at hk
    rcases Nat.lt_trichotomy k p.lines.length with hlt | heq | hgt
    · rw [List.getElem?_append_left hlt] at hk
      exact Or.inl hk
    · subst heq
      rw [List.getElem?_concat_length] at hk
      exact Or.inr ⟨rfl, (Option.some.inj hk).symm⟩
    · rw [List.getElem?_eq_none (by simp; omega)] at hk
      cases hk
  refine ⟨fun k l hk => ?_, fun k l hk => ?_, ?_, fun name a ha => ?_⟩
  · rcases hcase k l hk with hk | ⟨rfl, rfl⟩
    · exact h.number k l hk
    · rfl
  · rcases hcase k l hk with hk | ⟨rfl, rfl⟩
    · have hlt : k < p.lines.length := (List.getElem?_eq_some_iff.mp hk).1
      simp only [Program.push]
      rw [List.take_append_of_le_length (Nat.le_of_lt hlt), h.addr k l hk]
    · simp only [Program.push]
      rw [List.take_left, h.next]
  · simp only [Program.push, slotSum_append, slotSum_cons, slotSum_nil, slotsOf_of_ofMnemonic? hd, h.next]
    omega
  · left
    simp only [Program.push, List.mem_append, List.mem_singleton]
    rcases h.label name a ha with ⟨l, hl, rfl⟩ | rfl
    · exact ⟨l, Or.inl hl, rfl⟩
    · exact ⟨_, Or.inr rfl, rfl⟩

theorem edit {c : Change} {p q : Program} (he : Edit c p q) (h : p.Laid) : q.Laid := by
  cases he with
  | append comment hd => exact h.push hd comment
  | bind hl =>
    refine ⟨h.number, h.addr, h.next, fun name a ha => ?_⟩
    rcases List.mem_append.mp ha with ha | ha
    · exact h.label name a ha
    · right
      exact congrArg Prod.snd (List.mem_singleton.mp ha)
  | _ => exact ⟨h.number, h.addr, h.next, h.label⟩

end Program.Laid

/-- Every program that can be built is laid out. -/
theorem Reachable.laid {board : Board} {p : Program} (h : Reachable board p) : p.Laid :=
  h.induction (fun _ => Program.Laid.empty) fun _ _ _ => Program.Laid.edit

theorem Program.Laid.addr_of_eq_append {p : Program} (h : p.Laid) {pre post : List Line} {l : Line}
    (hl : p.lines = pre ++ l :: post) : l.addr = slotSum pre := by
  rw [h.addr pre.length l (by simp [hl]), hl, List.take_left]

theorem slotSum_take_le (lines : List Line) (k : ℕ) : slotSum (lines.take k) ≤ slotSum lines := by
  have hsplit : slotSum (lines.take k ++ lines.drop k) = slotSum lines := by rw [List.take_append_drop]
  rw [slotSum_append] at hsplit
  omega

theorem slotSum_take_mono (lines : List Line) {j k : ℕ} (h : j ≤ k) :
    slotSum (lines.take j) ≤ slotSum (lines.take k) := by
  have hle := slotSum_take_le (lines.take k) j
  rwa [List.take_take, Nat.min_eq_left h] at hle

/-- A line stands before the next address. -/
theorem Program.Laid.addr_lt {p : Program} (h : p.Laid) {l : Line} (hl : l ∈ p.lines) : l.addr < p.nextAddr := by
  obtain ⟨pre, post, hlines⟩ := List.append_of_mem hl
  rw [h.addr_of_eq_append hlines, h.next, hlines, slotSum_append, slotSum_cons]
  rcases slotsOf_cases l.instr.mnemonic with hs | hs <;> omega

/-- No line starts inside an instruction of two slots, and the next address does
not lie there either. -/
theorem Program.Laid.not_inside {p : Program} (h : p.Laid) {l : Line} (hl : l ∈ p.lines)
    (hslots : slotsOf l.instr.mnemonic = 2) :
    (∀ l' ∈ p.lines, l'.addr ≠ l.addr + 1) ∧ p.nextAddr ≠ l.addr + 1 := by
  obtain ⟨j, hj⟩ := List.mem_iff_getElem?.mp hl
  have haddr := h.addr j l hj
  have hend : slotSum (p.lines.take (j + 1)) = l.addr + 2 := by
    rw [List.take_add_one, hj, slotSum_append, haddr]
    simp [hslots]
  have hall := slotSum_take_le p.lines (j + 1)
  refine ⟨fun l' hl' => ?_, by rw [h.next]; omega⟩
  obtain ⟨k, hk⟩ := List.mem_iff_getElem?.mp hl'
  rw [h.addr k l' hk]
  -- a line up to this one starts no later, and a later one starts behind both slots
  rcases Nat.lt_or_ge j k with hlt | hge
  · have := slotSum_take_mono p.lines (show j + 1 ≤ k from hlt)
    omega
  · have := slotSum_take_mono p.lines hge
    omega

/-- **Words and addresses agree**: in every program that can be built, lines are
numbered in order, the address of a line is the sum of the slots before it, the
next address is the sum of all slots, and a label is bound to the address of a
line or to the next address, never inside an instruction of two slots. If the
program assembles, the image has a word for each address, the word at a line's
address is that of its instruction with labels replaced by their addresses, and
any other word is a zero right after the first word of an instruction of two slots. -/
theorem words_at_addresses {board : Board} {p : Program} (h : Reachable board p) :
    (∀ (k : ℕ) (l : Line), p.lines[k]? = some l → l.number = k ∧ l.addr = slotSum (p.lines.take k)) ∧
      p.nextAddr = slotSum p.lines ∧
      (∀ name a, (name, a) ∈ p.labels → ((∃ l ∈ p.lines, l.addr = a) ∨ a = p.nextAddr) ∧
        ∀ l ∈ p.lines, slotsOf l.instr.mnemonic = 2 → a ≠ l.addr + 1) ∧
      ∀ words, p.assemble = .ok words →
        words.length = p.nextAddr ∧
        (∀ l ∈ p.lines, ∃ w, words[l.addr]? = some w ∧ encode (l.instr.withAddresses p.labels) = .ok w) ∧
        ∀ (a : ℕ) (w : Word), words[a]? = some w → (∀ l ∈ p.lines, l.addr ≠ a) →
          w = 0 ∧ ∃ l ∈ p.lines, a = l.addr + 1 ∧ slotsOf l.instr.mnemonic = 2 := by
  have hlaid := h.laid
  refine ⟨fun k l hk => ⟨hlaid.number k l hk, hlaid.addr k l hk⟩, hlaid.next, fun name a ha => ?_, fun words hw => ?_⟩
  · refine ⟨hlaid.label name a ha, fun l hl hs => ?_⟩
    rcases hlaid.label name a ha with ⟨l', hl', rfl⟩ | rfl
    · exact (hlaid.not_inside hl hs).1 l' hl'
    · exact (hlaid.not_inside hl hs).2
  refine ⟨by rw [length_assemble hw, hlaid.next], fun l hl => ?_, fun a w ha hne => ?_⟩
  · obtain ⟨pre, post, hlines⟩ := List.append_of_mem hl
    unfold Program.assemble at hw
    rw [hlines] at hw
    obtain ⟨w, henc, hget, -⟩ := getElem?_assemble hw
    exact ⟨w, by rw [hlaid.addr_of_eq_append hlines, hget], henc⟩
  · obtain ⟨pre, l, post, hlines, hcase⟩ := mem_assemble hw ha
    have hl : l ∈ p.lines := by simp [hlines]
    have haddr := hlaid.addr_of_eq_append hlines
    rcases hcase with rfl | ⟨rfl, hs, hw⟩
    · exact absurd haddr (hne l hl)
    · exact ⟨hw, l, hl, by rw [haddr], hs⟩

/-- A jump forward over a wait, which takes two slots: the label is bound to
address 3, and the word at address 2 belongs to the wait. -/
theorem words_at_addresses_jump_over_wait :
    ∃ p words, Reachable bareBoard p ∧ p.labels = [("STOP", 3)] ∧ p.assemble = .ok words ∧
      words = [0x3200000000000003, 0x1500000000000005, 0, 0x3F00000000000000] ∧
      words.length = p.nextAddr ∧ ∃ l ∈ p.lines, 2 = l.addr + 1 ∧ slotsOf l.instr.mnemonic = 2 := by
  have hreach := (Reachable.start ofBoard_bareBoard).after
    [.instr "jnz" [.label "STOP"] none, .wait 5, .label "STOP", .finish]
  obtain ⟨-, -, -, hwords⟩ := words_at_addresses hreach
  refine ⟨_, _, hreach, rfl, rfl, rfl, (hwords _ rfl).1, ?_⟩
  exact ((hwords _ rfl).2.2 2 0 rfl (by decide)).2

end PulseAsm
