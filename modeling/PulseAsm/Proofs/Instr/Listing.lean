import PulseAsm.Instr.Listing
import PulseAsm.Proofs.Instr.Decoding
import Mathlib.Data.List.TakeWhile

/-!
# The rows of a listing

The row of a line is blanks, the instruction, and its comment at a column of its own
(`Line.ShownAs`). An instruction is written with all its operands, in order
(`Instr.WrittenBy`): this holds since the patterns of the table have each of them once.

A listing takes labels off a queue, as many as a line has reached, ahead of each line, and
what is left of the queue after the last line. The queue is in the order of addresses, but
the lines may be in any order, and labels may have the address of no line.

The rows are looked at with the addresses of their labels (`markedRows`). The queue comes
out as it went in, and so do the lines. Since labels behind one that has not been reached
have not been reached either, the lines ahead of a label are those that stand before the
first line to reach its address (`lines_ahead`).
-/

namespace PulseAsm

/-! ### The row of a line -/

/-- What stands ahead of each operand in a pattern. -/
def separators : List Piece → List String
  | .operand _ :: ps => "" :: separators ps
  | .text s :: .operand _ :: ps => s :: separators ps
  | _ => []

/-- The pattern of operands from an index on, each behind its separator. -/
def patternFrom (k : ℕ) : List String → List Piece
  | [] => []
  | s :: seps => (if s = "" then [] else [.text s]) ++ .operand k :: patternFrom (k + 1) seps

/-- What may stand ahead of an operand. -/
def punctuation : List String := ["", "@", " ", " $", ", ", ", $", ", &", ", @"]

/-- A pattern has all operands of the instruction, in order, behind separators. -/
theorem table_patterns :
    ∀ d ∈ table, d.pieces = patternFrom 0 (separators d.pieces) ∧ (separators d.pieces).length = d.arity ∧
      (∀ s ∈ separators d.pieces, s ∈ punctuation) ∧ ∀ s ∈ (separators d.pieces).tail, s ≠ "" := by
  decide

/-- The text of an operand; a question mark stands for one that is missing. -/
def operandText (operands : List Operand) (k : ℕ) : String := (operands[k]?).elim "?" Operand.text

theorem fill_operand (operands : List Operand) (k : ℕ) : (Piece.operand k).fill operands = operandText operands k := by
  cases h : operands[k]? <;> simp [Piece.fill, operandText, h]

theorem join_fill_patternFrom (operands : List Operand) (k : ℕ) (seps : List String) :
    String.join ((patternFrom k seps).map (·.fill operands)) =
      String.join (List.zipWith (· ++ ·) seps ((List.range' k seps.length).map (operandText operands))) := by
  induction seps generalizing k with
  | nil => rfl
  | cons s seps ih =>
    rw [patternFrom, List.length_cons, List.range'_succ, List.map_cons, List.zipWith_cons_cons, String.join_cons, ← ih]
    by_cases hs : s = ""
    · simp [hs, fill_operand, String.join_cons]
    · have htext : (Piece.text s).fill operands = s := rfl
      simp [hs, htext, fill_operand, String.join_cons, String.append_assoc]

/-- The instruction is written as its mnemonic, all its operands in order, each behind a
separator, and a mark if it updates the flags. -/
structure Instr.WrittenBy (i : Instr) (seps : List String) : Prop where
  count : seps.length = ((Descriptor.ofMnemonic? i.mnemonic).map Descriptor.arity).getD 0
  marks : ∀ s ∈ seps, s ∈ punctuation
  apart : ∀ s ∈ seps.tail, s ≠ ""
  text : i.text = i.mnemonic ++ (if seps = [] then "" else " ") ++
    String.join (List.zipWith (· ++ ·) seps ((List.range seps.length).map (operandText i.operands))) ++
    (if i.updateFlags then " uf" else "") ++ ";"

theorem Instr.exists_writtenBy (i : Instr) : ∃ seps, i.WrittenBy seps := by
  cases hd : Descriptor.ofMnemonic? i.mnemonic with
  | none =>
    refine ⟨[], by simp [hd], List.forall_mem_nil _, List.forall_mem_nil _, ?_⟩
    simp [Instr.text, hd, String.join]
  | some d =>
    obtain ⟨hpieces, hcount, hmarks, hapart⟩ := table_patterns d (Descriptor.ofMnemonic?_eq_some_iff.mp hd).1
    refine ⟨separators d.pieces, by simp [hd, hcount], hmarks, hapart, ?_⟩
    have hempty : d.pieces.isEmpty ↔ separators d.pieces = [] := by
      rw [List.isEmpty_iff]
      constructor
      · intro h
        rw [h]
        rfl
      · intro h
        rw [hpieces, h]
        rfl
    have hjoin := join_fill_patternFrom i.operands 0 (separators d.pieces)
    rw [← hpieces, ← List.range_eq_range'] at hjoin
    simp only [Instr.text, hd, hjoin, hempty]
    split
    · rename_i hnone
      simp [hnone, String.join]
    · simp only [String.append_assoc]

/-- The row shows the line: four blanks, the instruction and, if there is one, the comment,
which starts in column 48, counted in bytes, or one blank behind an instruction that is longer. -/
structure Line.ShownAs (l : Line) (row : String) : Prop where
  instr : ∃ seps, l.instr.WrittenBy seps
  plain : l.comment = none → row = "    " ++ l.instr.text
  commented : ∀ c, l.comment = some c → ∃ gap,
    row = "    " ++ l.instr.text ++ String.ofList (List.replicate gap ' ') ++ "// " ++ c ∧
      4 + l.instr.text.utf8ByteSize + gap = max 48 (4 + l.instr.text.utf8ByteSize + 1)

theorem pushn_empty (c : Char) (n : ℕ) : "".pushn c n = String.ofList (List.replicate n c) := by
  refine String.toList_inj.mp ?_
  induction n with
  | zero => rfl
  | succ n ih =>
    have hpush : "".pushn c (n + 1) = ("".pushn c n).push c := rfl
    rw [hpush, String.toList_push, ih, String.toList_ofList, String.toList_ofList, ← List.replicate_succ']

theorem Line.shownAs_text (l : Line) : l.ShownAs l.text := by
  refine ⟨l.instr.exists_writtenBy, fun hnone => ?_, fun c hc => ?_⟩
  · rw [Line.text, hnone]
  · have hsize : ("    " ++ l.instr.text).utf8ByteSize = 4 + l.instr.text.utf8ByteSize := String.utf8ByteSize_append ..
    refine ⟨max 1 (commentColumn - (4 + l.instr.text.utf8ByteSize)), ?_, ?_⟩
    · rw [Line.text, hc, hsize, ← pushn_empty]
    · unfold commentColumn
      omega

/-! ### The order of labels -/

theorem labelLE_iff {a b : ℕ × String} : labelLE a b = true ↔ a.1 < b.1 ∨ a.1 = b.1 ∧ a.2 ≤ b.2 := by
  simp [labelLE]

theorem labelLE_trans (a b c : ℕ × String) (hab : labelLE a b = true) (hbc : labelLE b c = true) :
    labelLE a c = true := by
  rw [labelLE_iff] at *
  rcases hab with hab | ⟨hab, hname⟩
  · rcases hbc with hbc | ⟨hbc, -⟩
    · exact Or.inl (Nat.lt_trans hab hbc)
    · exact Or.inl (hbc ▸ hab)
  · rcases hbc with hbc | ⟨hbc, hname'⟩
    · exact Or.inl (hab ▸ hbc)
    · exact Or.inr ⟨hab.trans hbc, String.le_trans hname hname'⟩

theorem labelLE_total (a b : ℕ × String) : (labelLE a b || labelLE b a) = true := by
  rw [Bool.or_eq_true, labelLE_iff, labelLE_iff]
  rcases Nat.lt_trichotomy a.1 b.1 with h | h | h
  · exact Or.inl (Or.inl h)
  · rcases String.le_total a.2 b.2 with hname | hname
    · exact Or.inl (Or.inr ⟨h, hname⟩)
    · exact Or.inr (Or.inr ⟨h.symm, hname⟩)
  · exact Or.inr (Or.inl h)

theorem pairwise_sortedLabels (labels : LabelTable) :
    (sortedLabels labels).Pairwise fun a b => a.1 < b.1 ∨ a.1 = b.1 ∧ a.2 ≤ b.2 :=
  (List.pairwise_mergeSort labelLE_trans labelLE_total _).imp labelLE_iff.mp

/-! ### Rows with the addresses of their labels -/

/-- The rows of a listing: labels with their addresses, and lines. -/
def markedRows : List Line → List (ℕ × String) → List ((ℕ × String) ⊕ Line)
  | [], pending => pending.map .inl
  | l :: ls, pending =>
    (pending.takeWhile (·.1 ≤ l.addr)).map .inl ++ .inr l :: markedRows ls (pending.dropWhile (·.1 ≤ l.addr))

@[simp] theorem filterMap_getLeft?_inl (pending : List (ℕ × String)) :
    (pending.map (Sum.inl (β := Line))).filterMap Sum.getLeft? = pending := by
  rw [List.filterMap_map]
  exact List.filterMap_some

@[simp] theorem filterMap_getRight?_inl (pending : List (ℕ × String)) :
    (pending.map (Sum.inl (β := Line))).filterMap Sum.getRight? = [] := by
  simp

theorem listingRows_eq (lines : List Line) (pending : List (ℕ × String)) :
    listingRows lines pending = (markedRows lines pending).map (Sum.elim (fun l => .label l.2) .line) := by
  induction lines generalizing pending with
  | nil => simp [listingRows, markedRows, labelRows]
  | cons l ls ih => simp [listingRows, markedRows, labelRows, ih]

/-- Every line has its row, in the order of the lines. -/
theorem filterMap_getRight?_markedRows (lines : List Line) (pending : List (ℕ × String)) :
    (markedRows lines pending).filterMap Sum.getRight? = lines := by
  induction lines generalizing pending with
  | nil => exact filterMap_getRight?_inl pending
  | cons l ls ih =>
    rw [markedRows, List.filterMap_append, filterMap_getRight?_inl, List.nil_append]
    exact congrArg (l :: ·) (ih _)

/-- Every label has its row, in the order of the queue. -/
theorem filterMap_getLeft?_markedRows (lines : List Line) (pending : List (ℕ × String)) :
    (markedRows lines pending).filterMap Sum.getLeft? = pending := by
  induction lines generalizing pending with
  | nil => exact filterMap_getLeft?_inl pending
  | cons l ls ih =>
    rw [markedRows, List.filterMap_append, filterMap_getLeft?_inl, List.filterMap_cons_none rfl, ih,
      List.takeWhile_append_dropWhile]

/-! ### Where a label stands -/

theorem lt_of_mem_dropWhile {pending : List (ℕ × String)} (hsorted : pending.Pairwise (·.1 ≤ ·.1)) {addr : ℕ}
    {e : ℕ × String} (he : e ∈ pending.dropWhile (·.1 ≤ addr)) : addr < e.1 := by
  induction pending with
  | nil => cases he
  | cons first pending ih =>
    obtain ⟨hfirst, hrest⟩ := List.pairwise_cons.mp hsorted
    by_cases hreached : first.1 ≤ addr
    · rw [List.dropWhile_cons_of_pos (by simpa using hreached)] at he
      exact ih hrest he
    · -- the queue is in order, so nothing behind a label that is ahead has been reached
      rw [List.dropWhile_cons_of_neg (by simpa using hreached)] at he
      rcases List.mem_cons.mp he with rfl | he
      · exact Nat.lt_of_not_le hreached
      · exact Nat.lt_of_lt_of_le (Nat.lt_of_not_le hreached) (hfirst e he)

/-- The lines ahead of the row of a label are those before the first that reaches its address. -/
theorem lines_ahead {lines : List Line} {pending : List (ℕ × String)} (hsorted : pending.Pairwise (·.1 ≤ ·.1))
    {pre post : List ((ℕ × String) ⊕ Line)} {e : ℕ × String} (h : markedRows lines pending = pre ++ .inl e :: post) :
    pre.filterMap Sum.getRight? = lines.takeWhile (·.addr < e.1) := by
  induction lines generalizing pending pre with
  | nil =>
    have hlines := filterMap_getRight?_markedRows [] pending
    rw [h, List.filterMap_append, List.append_eq_nil_iff] at hlines
    exact hlines.1
  | cons l ls ih =>
    rw [markedRows] at h
    rcases List.append_eq_append_iff.mp h with ⟨between, hpre, hrest⟩ | ⟨between, hlabels, hrest⟩
    · -- the label comes after the line, which has not reached it
      cases between with
      | nil => cases hrest
      | cons r between =>
        rw [List.cons_append, List.cons.injEq] at hrest
        obtain ⟨rfl, hrest⟩ := hrest
        have hmem : e ∈ pending.dropWhile (·.1 ≤ l.addr) := by
          rw [← filterMap_getLeft?_markedRows ls (pending.dropWhile (·.1 ≤ l.addr)), hrest]
          simp
        have hlt := lt_of_mem_dropWhile hsorted hmem
        have hahead := ih (hsorted.sublist (List.dropWhile_sublist _)) hrest
        rw [hpre, List.filterMap_append, filterMap_getRight?_inl, List.nil_append,
          List.takeWhile_cons_of_pos (by simpa using hlt), ← hahead]
        rfl
    · -- the label is one of those that the line has reached
      cases between with
      | nil => cases hrest
      | cons r between =>
        rw [List.cons_append, List.cons.injEq] at hrest
        obtain ⟨rfl, -⟩ := hrest
        have hmem : e ∈ pending.takeWhile (·.1 ≤ l.addr) := by
          rw [← filterMap_getLeft?_inl (pending.takeWhile (·.1 ≤ l.addr)), hlabels]
          simp
        have hle : e.1 ≤ l.addr := by simpa using List.mem_takeWhile_imp hmem
        have hlines := filterMap_getRight?_inl (pending.takeWhile (·.1 ≤ l.addr))
        rw [hlabels, List.filterMap_append, List.append_eq_nil_iff] at hlines
        rw [hlines.1, List.takeWhile_cons_of_neg (by simpa using hle)]

/-- **A listing loses and duplicates nothing**: for lines in any order of their addresses and
any labels, it is the header and then rows of which one is for each line, in the order of
the lines, and one for each label. The row of a line shows its instruction, with all its
operands, and its comment. The lines ahead of a label are those that stand before
the first line to reach its address, so the label is directly ahead of that line, with
nothing but labels in between, or after all lines if none reaches it. From top to bottom,
labels are in the order of their addresses, and of their names where they share one. -/
theorem listing_shows_all_once (lines : List Line) (labels : LabelTable) :
    ∃ (rows : List ((ℕ × String) ⊕ Line)) (shown : Line → String),
      listing lines labels = "// Program\n\n" ++
        String.join (rows.map (Sum.elim (fun label => label.2 ++ ":\n") (fun l => shown l ++ "\n"))) ∧
      (∀ l : Line, l.ShownAs (shown l)) ∧
      rows.filterMap Sum.getRight? = lines ∧ (rows.filterMap Sum.getLeft?).Perm (labels.map Prod.swap) ∧
      (∀ pre addr name post, rows = pre ++ .inl (addr, name) :: post →
        pre.filterMap Sum.getRight? = lines.takeWhile (·.addr < addr) ∧
        post.filterMap Sum.getRight? = lines.dropWhile (·.addr < addr)) ∧
      (rows.filterMap Sum.getLeft?).Pairwise fun a b => a.1 < b.1 ∨ a.1 = b.1 ∧ a.2 ≤ b.2 := by
  have hlines := filterMap_getRight?_markedRows lines (sortedLabels labels)
  have hlabels := filterMap_getLeft?_markedRows lines (sortedLabels labels)
  refine ⟨markedRows lines (sortedLabels labels), Line.text, ?_, Line.shownAs_text, hlines, ?_, ?_, ?_⟩
  · have htext : Row.text ∘ Sum.elim (fun label : ℕ × String => .label label.2) .line =
        Sum.elim (fun label => label.2 ++ ":\n") (fun l => l.text ++ "\n") := by
      funext r
      cases r <;> rfl
    rw [listing, listingRows_eq, List.map_map, htext]
  · rw [hlabels]
    exact List.mergeSort_perm _ _
  · intro pre addr name post hrows
    have hsorted : (sortedLabels labels).Pairwise (·.1 ≤ ·.1) :=
      (pairwise_sortedLabels labels).imp fun h => h.elim Nat.le_of_lt fun h => Nat.le_of_eq h.1
    have hahead := lines_ahead hsorted hrows
    refine ⟨hahead, ?_⟩
    rw [hrows, List.filterMap_append, hahead] at hlines
    have hwhole := hlines.trans (List.takeWhile_append_dropWhile (p := (·.addr < addr))).symm
    exact List.append_cancel_left hwhole
  · rw [hlabels]
    exact pairwise_sortedLabels labels

/-- A line at address 4 ahead of one at address 2. -/
def turnedLines : List Line :=
  [⟨⟨"waiti", [.value 0, .value 9], false⟩, 4, 0, none⟩, ⟨⟨"end", [], false⟩, 2, 1, some "halt"⟩]

/-- Two labels share the address 3, which no line has. They stand ahead of the line at 4, and
the later line at 2 makes no difference. -/
theorem listing_shows_all_once_turned :
    ∃ (pre post : List ((ℕ × String) ⊕ Line)) (shown : Line → String),
      listing turnedLines [("C", 3), ("Z", 9), ("A", 3), ("B", 1)] = "// Program\n\n" ++
        String.join ((pre ++ .inl (3, "A") :: post).map
          (Sum.elim (fun label => label.2 ++ ":\n") (fun l => shown l ++ "\n"))) ∧
      turnedLines.map shown =
        ["    waiti 0, 9;", "    end;                                        // halt"] ∧
      pre.filterMap Sum.getRight? = [] ∧ post.filterMap Sum.getRight? = turnedLines := by
  obtain ⟨rows, shown, htext, hshown, -, hlabels, hplace, -⟩ :=
    listing_shows_all_once turnedLines [("C", 3), ("Z", 9), ("A", 3), ("B", 1)]
  have hmem : (3, "A") ∈ rows.filterMap Sum.getLeft? := hlabels.mem_iff.mpr (by decide)
  obtain ⟨r, hr, hlabel⟩ := List.mem_filterMap.mp hmem
  obtain rfl : r = .inl (3, "A") := Sum.getLeft?_eq_some_iff.mp hlabel
  obtain ⟨pre, post, rfl⟩ := List.append_of_mem hr
  have hplain : shown ⟨⟨"waiti", [.value 0, .value 9], false⟩, 4, 0, none⟩ = "    waiti 0, 9;" :=
    ((hshown _).plain rfl).trans (by decide +kernel)
  have hcomment : shown ⟨⟨"end", [], false⟩, 2, 1, some "halt"⟩ =
      "    end;                                        // halt" := by
    obtain ⟨gap, hrow, hgap⟩ := (hshown ⟨⟨"end", [], false⟩, 2, 1, some "halt"⟩).commented "halt" rfl
    have hsize : (⟨"end", [], false⟩ : Instr).text.utf8ByteSize = 4 := by decide +kernel
    dsimp only at hgap
    rw [hsize] at hgap
    obtain rfl : gap = 40 := by omega
    exact hrow.trans (by decide +kernel)
  exact ⟨pre, post, shown, htext, by simp [turnedLines, hplain, hcomment], hplace pre 3 "A" post rfl⟩

end PulseAsm
