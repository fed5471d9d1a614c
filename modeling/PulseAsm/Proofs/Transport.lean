import PulseAsm.Device
import PulseAsm.Proofs.Analysis.Sweep
import Mathlib.Algebra.Ring.Nat

/-!
# Images in transport

The words of a program leave in four forms: as bytes, as hexadecimal and as binary numerals
with one to a line, and as the registers of program memory. Each of them is read back here
by a reader that knows nothing of the writer: numerals digit by digit, a text line by line,
registers by their offsets.

Bytes are read back by the library itself, and every image whose length is a multiple of
eight has words of which it is the image.
-/

namespace PulseAsm

/-! ### Bytes -/

/-- Bytes are written as they were read. -/
theorem littleEndian_ofLittleEndian (bytes : List UInt8) :
    littleEndian bytes.length (ofLittleEndian bytes) = bytes := by
  induction bytes with
  | nil => rfl
  | cons b bytes ih =>
    have hb : b.toNat < 256 := b.toNat_lt
    have hmod : (b.toNat + 256 * ofLittleEndian bytes) % 256 = b.toNat := by omega
    have hdiv : (b.toNat + 256 * ofLittleEndian bytes) / 256 = ofLittleEndian bytes := by omega
    rw [List.length_cons, ofLittleEndian, littleEndian, hmod, hdiv, ih, UInt8.ofNat_toNat]

theorem ofLittleEndian_lt (bytes : List UInt8) : ofLittleEndian bytes < 256 ^ bytes.length := by
  induction bytes with
  | nil => decide
  | cons b bytes ih =>
    have hb : b.toNat < 256 := b.toNat_lt
    rw [List.length_cons, Nat.pow_succ, ofLittleEndian]
    omega

namespace Image

theorem toBytes_cons (w : Word) (words : List Word) : toBytes (w :: words) = littleEndian 8 w.toNat ++ toBytes words :=
  List.flatMap_cons

/-- Whole words are written as they were read. -/
theorem toBytes_wordsOfBytes {n : ℕ} {bytes : List UInt8} (h : bytes.length = 8 * n) :
    toBytes (wordsOfBytes bytes) = bytes := by
  induction n generalizing bytes with
  | zero =>
    rw [List.eq_nil_of_length_eq_zero h]
    rfl
  | succ n ih =>
    have hfirst : (bytes.take 8).length = 8 := by
      rw [List.length_take]
      omega
    have hrest : (bytes.drop 8).length = 8 * n := by
      rw [List.length_drop]
      omega
    have hword : (BitVec.ofNat 64 (ofLittleEndian (bytes.take 8))).toNat = ofLittleEndian (bytes.take 8) := by
      have hlt := ofLittleEndian_lt (bytes.take 8)
      rw [hfirst] at hlt
      exact Nat.mod_eq_of_lt hlt
    have hback := littleEndian_ofLittleEndian (bytes.take 8)
    rw [hfirst] at hback
    calc toBytes (wordsOfBytes bytes)
        = toBytes (wordsOfBytes (bytes.take 8 ++ bytes.drop 8)) := by rw [List.take_append_drop]
      _ = bytes.take 8 ++ bytes.drop 8 := by
        rw [wordsOfBytes_append hfirst, toBytes_cons, hword, hback, ih hrest]
      _ = bytes := List.take_append_drop 8 bytes

theorem exists_ofBytes?_iff {bytes : List UInt8} : (∃ words, ofBytes? bytes = some words) ↔ 8 ∣ bytes.length := by
  unfold ofBytes?
  rw [Nat.dvd_iff_mod_eq_zero]
  split <;> simp_all

theorem toBytes_of_ofBytes? {bytes : List UInt8} {words : List Word} (h : ofBytes? bytes = some words) :
    toBytes words = bytes := by
  obtain ⟨n, hn⟩ := exists_ofBytes?_iff.mp ⟨words, h⟩
  unfold ofBytes? at h
  split at h <;> cases h
  exact toBytes_wordsOfBytes hn

end Image

/-! ### Numerals -/

namespace Text.Radix

/-- The digits of a base, in the order of their values. -/
def digits (base : ℕ) : List Char := "0123456789abcdef".toList.take base

theorem digitValue?_digitChar {d : ℕ} (h : d < 16) : digitValue? (digitChar d) = some d := by
  have hall : ∀ d < 16, digitValue? (digitChar d) = some d := by decide
  exact hall d h

theorem digitChar_mem_digits {base d : ℕ} (hbase : base ≤ 16) (h : d < base) : digitChar d ∈ digits base := by
  have hall : ∀ base < 17, ∀ d < base, digitChar d ∈ digits base := by decide
  exact hall base (by omega) d h

theorem newline_notMem_digits (base : ℕ) : '\n' ∉ digits base := by
  intro h
  have hall : '\n' ∉ "0123456789abcdef".toList := by decide
  exact hall (List.mem_of_mem_take h)

section Fixed

variable {base : ℕ} (hpos : 0 < base) (hbase : base ≤ 16)
include hpos hbase

theorem mem_digits_of_mem_fixed {width n : ℕ} {c : Char} (hc : c ∈ fixed base width n) : c ∈ digits base := by
  induction width generalizing n with
  | zero => cases hc
  | succ width ih =>
    rcases List.mem_append.mp hc with hc | hc
    · exact ih hc
    · rw [List.mem_singleton.mp hc]
      exact digitChar_mem_digits hbase (Nat.mod_lt n hpos)

/-- Reading digits goes on from the number that has been read. -/
theorem foldlM_fixed (width n first : ℕ) :
    (fixed base width n).foldlM (fun n c => (digitValue? c).bind fun d =>
      if d < base then some (base * n + d) else none) first = some (first * base ^ width + n % base ^ width) := by
  induction width generalizing n with
  | zero => simp [fixed, Nat.mod_one]
  | succ width ih =>
    have hd : n % base < base := Nat.mod_lt n hpos
    have hvalue : base * (first * base ^ width + n / base % base ^ width) + n % base =
        first * base ^ (width + 1) + n % base ^ (width + 1) := by
      rw [Nat.pow_succ', Nat.mod_mul, Nat.mul_add, Nat.mul_left_comm]
      omega
    rw [fixed, List.foldlM_append, ih]
    simp [digitValue?_digitChar (Nat.lt_of_lt_of_le hd hbase), hd, hvalue]

theorem ofDigits?_fixed {width : ℕ} (hwidth : 0 < width) (n : ℕ) :
    ofDigits? base (fixed base width n) = some (n % base ^ width) := by
  have hne : (fixed base width n).isEmpty = false := by
    rw [List.isEmpty_eq_false_iff, ← List.length_pos_iff, length_fixed]
    exact hwidth
  unfold ofDigits?
  rw [hne, if_neg Bool.false_ne_true, foldlM_fixed hpos hbase, Nat.zero_mul, Nat.zero_add]

end Fixed

theorem toList_hex (width n : ℕ) : (hex width n).toList = '0' :: 'x' :: fixed 16 width n := by
  simp [hex]

theorem toList_bin (width n : ℕ) : (bin width n).toList = '0' :: 'b' :: fixed 2 width n := by
  simp [bin]

theorem ofHex?_hex {width : ℕ} (hwidth : 0 < width) (n : ℕ) : ofHex? (hex width n) = some (n % 16 ^ width) := by
  unfold ofHex?
  rw [toList_hex]
  exact ofDigits?_fixed (by decide) (by decide) hwidth n

theorem ofBin?_bin {width : ℕ} (hwidth : 0 < width) (n : ℕ) : ofBin? (bin width n) = some (n % 2 ^ width) := by
  unfold ofBin?
  rw [toList_bin]
  exact ofDigits?_fixed (by decide) (by decide) hwidth n

/-- The text is a mark and so many digits of a base. -/
def IsNumeral (mark : String) (base width : ℕ) (text : String) : Prop :=
  ∃ cs : List Char, text = mark ++ String.ofList cs ∧ cs.length = width ∧ ∀ c ∈ cs, c ∈ digits base

theorem isNumeral_hex (width n : ℕ) : IsNumeral "0x" 16 width (hex width n) :=
  ⟨_, rfl, length_fixed 16 width n, fun _ => mem_digits_of_mem_fixed (by decide) (by decide)⟩

theorem isNumeral_bin (width n : ℕ) : IsNumeral "0b" 2 width (bin width n) :=
  ⟨_, rfl, length_fixed 2 width n, fun _ => mem_digits_of_mem_fixed (by decide) (by decide)⟩

end Text.Radix

/-! ### Lines -/

namespace Text

/-- The lines of a list of characters. A line end closes its line, and the last line may do
without one. -/
def charLines : List Char → List (List Char)
  | [] => []
  | c :: cs => if c = '\n' then [] :: charLines cs else (c :: (charLines cs).headD []) :: (charLines cs).tail

/-- The lines of a text. -/
def lines (text : String) : List String := (charLines text.toList).map String.ofList

theorem charLines_append {l : List Char} (h : '\n' ∉ l) (rest : List Char) :
    charLines (l ++ '\n' :: rest) = l :: charLines rest := by
  induction l with
  | nil => rfl
  | cons c l ih =>
    rw [List.mem_cons, not_or] at h
    rw [List.cons_append, charLines, ih h.2, if_neg (Ne.symm h.1)]
    rfl

theorem charLines_single {l : List Char} (h : '\n' ∉ l) (hne : l ≠ []) : charLines l = [l] := by
  induction l with
  | nil => exact absurd rfl hne
  | cons c l ih =>
    rw [List.mem_cons, not_or] at h
    cases l with
    | nil => simp [charLines, Ne.symm h.1]
    | cons d l =>
      rw [charLines, ih h.2 (List.cons_ne_nil d l), if_neg (Ne.symm h.1)]
      rfl

/-- Lines that are joined by line ends are told apart again. -/
theorem lines_intercalate {ls : List String} (h : ∀ l ∈ ls, '\n' ∉ l.toList ∧ l.toList ≠ []) :
    lines ("\n".intercalate ls) = ls := by
  induction ls with
  | nil => rfl
  | cons l ls ih =>
    obtain ⟨⟨hl, hne⟩, hls⟩ := List.forall_mem_cons.mp h
    cases ls with
    | nil =>
      rw [String.intercalate_singleton, lines, charLines_single hl hne, List.map_singleton, String.ofList_toList]
    | cons l' ls =>
      have htext : ("\n".intercalate (l :: l' :: ls)).toList =
          l.toList ++ '\n' :: ("\n".intercalate (l' :: ls)).toList := by
        rw [String.intercalate_cons_cons, String.toList_append, String.toList_append, List.append_assoc]
        rfl
      rw [lines, htext, charLines_append hl, List.map_cons, String.ofList_toList]
      exact congrArg (l :: ·) (ih hls)

end Text

/-- Numerals with one to a line are told apart, and each is read by what reads a single one. -/
theorem numerals_read_back {mark : String} {base width : ℕ} {numeral : Word → String} {read : String → Option ℕ}
    (hmark : '\n' ∉ mark.toList ∧ mark.toList ≠ []) (hform : ∀ w, Text.Radix.IsNumeral mark base width (numeral w))
    (hread : ∀ w, read (numeral w) = some w.toNat) (words : List Word) :
    (Text.lines ("\n".intercalate (words.map numeral))).mapM read = some (words.map BitVec.toNat) ∧
      ∀ line ∈ Text.lines ("\n".intercalate (words.map numeral)), Text.Radix.IsNumeral mark base width line := by
  have hlines : Text.lines ("\n".intercalate (words.map numeral)) = words.map numeral := by
    apply Text.lines_intercalate
    intro l hl
    obtain ⟨w, -, rfl⟩ := List.mem_map.mp hl
    obtain ⟨cs, hw, -, hcs⟩ := hform w
    have hend : '\n' ∉ cs := fun h => Text.Radix.newline_notMem_digits base (hcs _ h)
    simp [hw, hmark.1, hmark.2, hend]
  rw [hlines]
  constructor
  · have hread' : read ∘ numeral = fun w => pure w.toNat := funext hread
    rw [List.mapM_map, hread']
    exact List.mapM_pure
  · intro line hline
    obtain ⟨w, -, rfl⟩ := List.mem_map.mp hline
    exact hform w

/-! ### Program memory -/

namespace Device

theorem Registers.lookup_cons (o o' : ℕ) (v : UInt32) (regs : Registers) :
    List.lookup o' ((o, v) :: regs) = if o = o' then some v else regs.lookup o' := by
  rw [List.lookup_cons]
  by_cases h : o = o'
  · simp [h]
  · have hne : (o' == o) = false := by simp [Ne.symm h]
    simp [h, hne]

/-- A write shows at its offset and nowhere else, whether the offset was written before or not. -/
theorem Registers.read_write (regs : Registers) (o o' : ℕ) (v : UInt32) :
    (regs.write o v).read o' = if o = o' then v else regs.read o' := by
  have hlookup : (regs.write o v).lookup o' = if o = o' then some v else regs.lookup o' := by
    induction regs with
    | nil => exact lookup_cons o o' v []
    | cons e regs ih =>
      obtain ⟨first, u⟩ := e
      rw [write]
      by_cases hlt : o < first
      · rw [if_pos hlt, lookup_cons]
      · by_cases heq : o = first
        · rw [if_neg hlt, if_pos heq, lookup_cons, lookup_cons, heq]
          split <;> rfl
        · rw [if_neg hlt, if_neg heq, lookup_cons, lookup_cons, ih]
          by_cases hfirst : first = o'
          · have hne : o ≠ o' := fun h => heq (h.trans hfirst.symm)
            simp [hfirst, hne]
          · simp [hfirst]
  unfold read
  rw [hlookup]
  split <;> rfl

theorem toNat_lowHalf (w : Word) : (lowHalf w).toNat = w.toNat % 2 ^ 32 := by
  simp [lowHalf]

theorem toNat_highHalf (w : Word) : (highHalf w).toNat = w.toNat / 2 ^ 32 := by
  have hlt : w.toNat / 2 ^ 32 < 2 ^ 32 := by
    have := w.isLt
    omega
  rw [highHalf, Nat.shiftRight_eq_div_pow]
  exact Nat.mod_eq_of_lt hlt

/-- Words that were written from index `i` on: each is found in its two registers, and the
registers that belong to none of them read as before. -/
structure Loaded (regs : Registers) (i : ℕ) (words : List Word) (regs' : Registers) : Prop where
  /-- The halves of a word are at its offsets. -/
  halves : ∀ k w, words[k]? = some w →
    regs'.read (8 * (i + k)) = lowHalf w ∧ regs'.read (8 * (i + k) + 4) = highHalf w
  /-- Other offsets read as before. -/
  others : ∀ o, (∀ k < words.length, o ≠ 8 * (i + k) ∧ o ≠ 8 * (i + k) + 4) → regs'.read o = regs.read o

theorem Loaded.cons {regs regs' : Registers} {i : ℕ} {w : Word} {words : List Word}
    (h : Loaded ((regs.write (8 * i) (lowHalf w)).write (8 * i + 4) (highHalf w)) (i + 1) words regs') :
    Loaded regs i (w :: words) regs' := by
  constructor
  · intro k v hv
    cases k with
    | zero =>
      obtain rfl : w = v := Option.some.inj hv
      -- the words behind are written past these offsets
      rw [Nat.add_zero, h.others (8 * i) (by omega), h.others (8 * i + 4) (by omega)]
      simp [Registers.read_write]
    | succ k =>
      have hk : i + (k + 1) = i + 1 + k := by omega
      rw [hk]
      exact h.halves k v hv
  · intro o ho
    have hself := ho 0 (Nat.succ_pos _)
    rw [Nat.add_zero] at hself
    have hrest : ∀ k < words.length, o ≠ 8 * (i + 1 + k) ∧ o ≠ 8 * (i + 1 + k) + 4 := by
      intro k hk
      have hne := ho (k + 1) (Nat.succ_lt_succ hk)
      rwa [Nat.add_comm k 1, ← Nat.add_assoc] at hne
    rw [h.others o hrest, Registers.read_write, if_neg (Ne.symm hself.2), Registers.read_write,
      if_neg (Ne.symm hself.1)]

/-- A window that takes every write takes all words that its offsets reach. -/
theorem loadFrom_memory {i : ℕ} {words : List Word} (h : i + words.length ≤ 2 ^ 29) (regs : Registers) :
    ∃ regs', StateT.run (ExceptT.run (loadFrom memory i words)) regs = (.ok (), regs') ∧ Loaded regs i words regs' := by
  induction words generalizing i regs with
  | nil =>
    refine ⟨regs, rfl, ?_, fun _ _ => rfl⟩
    intro k w hw
    cases hw
  | cons w words ih =>
    rw [List.length_cons] at h
    have hfits : 8 * i < 1 <<< 32 := by
      rw [Nat.one_shiftLeft]
      omega
    obtain ⟨regs', hload, hloaded⟩ :=
      ih (i := i + 1) (by omega) ((regs.write (8 * i) (lowHalf w)).write (8 * i + 4) (highHalf w))
    refine ⟨regs', ?_, hloaded.cons⟩
    rw [← hload, loadFrom, if_pos hfits]
    rfl

end Device

open Text Device in
/-- **Images survive transport**: words are read back from their bytes, from the lines of
their hexadecimal or binary text, and from program memory. Bytes are an image exactly if
their number is a multiple of eight, and an image that has been read is written as it was.
A line is `0x` and 16 digits, or `0b` and 64; read as numerals, the lines are the words in
their order, one line for each, and none for the empty program. A window that takes every
write takes up to `2 ^ 29` words, whatever it holds; afterwards the low and the high half of
word `i` are at offsets `8 * i` and `8 * i + 4`, and all other offsets read as before. -/
theorem images_survive_transport (words : List Word) :
    (Image.ofBytes? (Image.toBytes words) = some words ∧
      ∀ bytes, ((∃ ws, Image.ofBytes? bytes = some ws) ↔ 8 ∣ bytes.length) ∧
        ∀ ws, Image.ofBytes? bytes = some ws → Image.toBytes ws = bytes) ∧
      ((lines (Image.hex words)).mapM Radix.ofHex? = some (words.map BitVec.toNat) ∧
        ∀ line ∈ lines (Image.hex words), Radix.IsNumeral "0x" 16 16 line) ∧
      ((lines (Image.bin words)).mapM Radix.ofBin? = some (words.map BitVec.toNat) ∧
        ∀ line ∈ lines (Image.bin words), Radix.IsNumeral "0b" 2 64 line) ∧
      (words.length ≤ 2 ^ 29 → ∀ regs : Registers, ∃ regs', loadProgram memory words regs = (.ok (), regs') ∧
        (∀ i w, words[i]? = some w →
          (regs'.read (8 * i)).toNat = w.toNat % 2 ^ 32 ∧ (regs'.read (8 * i + 4)).toNat = w.toNat / 2 ^ 32) ∧
        ∀ o, (∀ i < words.length, o ≠ 8 * i ∧ o ≠ 8 * i + 4) → regs'.read o = regs.read o) := by
  have hhex : ∀ w : Word, Radix.ofHex? (Radix.hex 16 w.toNat) = some w.toNat := by
    intro w
    have hlt : w.toNat < 16 ^ 16 := by
      have hw := w.isLt
      omega
    rw [Radix.ofHex?_hex (by decide), Nat.mod_eq_of_lt hlt]
  have hbin : ∀ w : Word, Radix.ofBin? (Radix.bin 64 w.toNat) = some w.toNat := by
    intro w
    rw [Radix.ofBin?_bin (by decide), Nat.mod_eq_of_lt w.isLt]
  refine ⟨⟨Image.ofBytes?_toBytes words, fun bytes => ⟨Image.exists_ofBytes?_iff, fun _ => Image.toBytes_of_ofBytes?⟩⟩,
    numerals_read_back (by decide) (fun w => Radix.isNumeral_hex 16 w.toNat) hhex words,
    numerals_read_back (by decide) (fun w => Radix.isNumeral_bin 64 w.toNat) hbin words, ?_⟩
  · intro hlength regs
    have hfits : 0 + words.length ≤ 2 ^ 29 := by rwa [Nat.zero_add]
    obtain ⟨regs', hload, hloaded⟩ := loadFrom_memory hfits regs
    refine ⟨regs', hload, fun i w hw => ?_, fun o ho => hloaded.others o ?_⟩
    · have hhalves := hloaded.halves i w hw
      rw [Nat.zero_add] at hhalves
      rw [hhalves.1, hhalves.2, toNat_lowHalf, toNat_highHalf]
      exact ⟨rfl, rfl⟩
    · simpa using ho

/-- The bytes of a word with leading zeros, and the word followed by another in a window
that holds something at offset 12 and behind the program. -/
theorem images_survive_transport_leading_zeros :
    (Image.ofBytes? [0xAA, 0, 0, 0, 0, 0, 0, 0] = some [0xAA] ∧ Image.toBytes [0xAA] = [0xAA, 0, 0, 0, 0, 0, 0, 0]) ∧
      ∃ regs', Device.loadProgram Device.memory [0xAA, 0x1122334455667788] [(12, 5), (16, 9)] = (.ok (), regs') ∧
        (Device.Registers.read regs' 4).toNat = 0 ∧ (Device.Registers.read regs' 8).toNat = 0x55667788 ∧
        (Device.Registers.read regs' 12).toNat = 0x11223344 ∧ Device.Registers.read regs' 16 = 9 := by
  have hbytes : Image.ofBytes? [0xAA, 0, 0, 0, 0, 0, 0, 0] = some [0xAA] := by decide
  obtain ⟨⟨-, hback⟩, -, -, hload⟩ := images_survive_transport [0xAA, 0x1122334455667788]
  obtain ⟨regs', hload, hhalves, hothers⟩ := hload (by decide) [(12, 5), (16, 9)]
  refine ⟨⟨hbytes, (hback _).2 _ hbytes⟩, regs', hload, ?_, ?_, ?_, ?_⟩
  · exact (hhalves 0 _ rfl).2
  · exact (hhalves 1 _ rfl).1
  · exact (hhalves 1 _ rfl).2
  · exact hothers 16 (by decide)

end PulseAsm
