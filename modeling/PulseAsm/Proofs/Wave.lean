import PulseAsm.Proofs.Keys
import PulseAsm.Proofs.Outcome
import PulseAsm.Wave
import Mathlib.Algebra.Ring.Nat
import Mathlib.Data.List.Induction

/-!
# Rows of the wave table

A row is made in three layers: the fields one after the other, the zero byte that is put between
them, and the zeros behind. `Wave.row_eq_ok_iff` says what comes out of them, and `Wave.ofRow` reads
the fields back from their places.

The table has the first wave that was requested under each name (`WaveTable.Keeps`), and its index
finds the rows (`WaveTable.Indexed`). A request writes the index first and then the row. One under a
name that is taken fails, and then neither has been written (`WaveTable.addInPlace_apply`).
-/

namespace PulseAsm

/-- The number that stands in `count` bytes from an offset on, least significant byte first. -/
def fieldAt (bytes : List UInt8) (offset count : ℕ) : ℕ := ofLittleEndian ((bytes.drop offset).take count)

/-- A field is read back where it was put. -/
theorem fieldAt_littleEndian (count : ℕ) {n : ℕ} (hn : n < 2 ^ (8 * count)) (after : List UInt8) :
    fieldAt (littleEndian count n ++ after) 0 count = n := by
  have htake : (littleEndian count n ++ after).take count = littleEndian count n :=
    List.take_left' (length_littleEndian count n)
  rw [fieldAt, List.drop_zero, htake, ofLittleEndian_littleEndian, Nat.one_shiftLeft, Nat.mod_eq_of_lt hn]

/-- What stands before a field only moves it. -/
theorem fieldAt_append {before : List UInt8} {offset : ℕ} (h : before.length ≤ offset) (after : List UInt8)
    (count : ℕ) : fieldAt (before ++ after) offset count = fieldAt after (offset - before.length) count := by
  rw [fieldAt, fieldAt, List.drop_append, List.drop_eq_nil_of_le h, List.nil_append]

theorem fieldAt_cons (b : UInt8) (after : List UInt8) (offset count : ℕ) :
    fieldAt (b :: after) (offset + 1) count = fieldAt after offset count := rfl

namespace Wave

/-- The wave that a row stands for. -/
def ofRow (bytes : List UInt8) : Wave where
  freq := .ofNat (fieldAt bytes 0 4)
  phase := .ofNat (fieldAt bytes 4 4)
  env := .ofNat (fieldAt bytes 8 3)
  gain := (UInt32.ofNat (fieldAt bytes 12 4)).toInt32
  length := .ofNat (fieldAt bytes 16 4)
  conf := .ofNat (fieldAt bytes 20 2)

/-- The bytes of a row, if its envelope address fits. -/
def layout (w : Wave) : List UInt8 :=
  littleEndian 4 w.freq.toNat ++ (littleEndian 4 w.phase.toNat ++ (littleEndian 3 w.env.toNat ++ (0 ::
    (littleEndian 4 w.gain.toUInt32.toNat ++ (littleEndian 4 w.length.toNat ++ (littleEndian 2 w.conf.toNat ++
      List.replicate 10 0))))))

/-- The layers of the layout: the gap stands between the first three fields and the others, and
zeros fill up the row. -/
theorem row_of_lt {w : Wave} (henv : w.env.toNat < envLimit) : w.row = .ok w.layout := by
  obtain ⟨head, hhead⟩ : ∃ head, head = littleEndian 4 w.freq.toNat ++ littleEndian 4 w.phase.toNat ++
    littleEndian 3 w.env.toNat := ⟨_, rfl⟩
  obtain ⟨tail, htail⟩ : ∃ tail, tail = littleEndian 4 w.gain.toUInt32.toNat ++ littleEndian 4 w.length.toNat ++
    littleEndian 2 w.conf.toNat := ⟨_, rfl⟩
  have hlength : head.length = gapOffset := by simp [hhead, gapOffset]
  have hraw : w.rawBytes = .ok (head ++ tail) := by
    rw [rawBytes, if_pos henv, hhead, htail]
    simp only [List.append_assoc]
  have hrecord : w.record = .ok (head ++ 0 :: tail) := by
    refine bind_eq_ok_iff.mpr ⟨_, hraw, ?_⟩
    rw [List.take_left' hlength, List.drop_left' hlength]
    rfl
  have hfill : rowBytes - (head ++ 0 :: tail).length = 10 := by simp [hhead, htail, rowBytes]
  refine bind_eq_ok_iff.mpr ⟨_, hrecord, ?_⟩
  rw [hfill, hhead, htail]
  simp only [layout, List.append_assoc, List.cons_append]
  rfl

theorem row_eq_ok_iff {w : Wave} {bytes : List UInt8} :
    w.row = .ok bytes ↔ w.env.toNat < envLimit ∧ bytes = w.layout := by
  constructor
  · intro h
    by_cases henv : w.env.toNat < envLimit
    · rw [row_of_lt henv] at h
      exact ⟨henv, (Except.ok.inj h).symm⟩
    · obtain ⟨record, h, -⟩ := bind_eq_ok_iff.mp h
      obtain ⟨raw, h, -⟩ := bind_eq_ok_iff.mp h
      rw [rawBytes, if_neg henv] at h
      cases h
  · rintro ⟨henv, rfl⟩
    exact row_of_lt henv

theorem exists_row_iff {w : Wave} : (∃ row, w.row = .ok row) ↔ w.env.toNat < envLimit := by
  simp [row_eq_ok_iff]

theorem length_layout (w : Wave) : w.layout.length = rowBytes := by simp [layout, rowBytes]

/-- Every field lands where it is read. -/
theorem ofRow_layout {w : Wave} (henv : w.env.toNat < envLimit) : ofRow w.layout = w := by
  have hfreq : fieldAt w.layout 0 4 = w.freq.toNat := fieldAt_littleEndian 4 w.freq.toNat_lt _
  have hphase : fieldAt w.layout 4 4 = w.phase.toNat := by
    simp [layout, fieldAt_append, fieldAt_littleEndian 4 w.phase.toNat_lt]
  have hstored : fieldAt w.layout 8 3 = w.env.toNat := by
    simp [layout, fieldAt_append, fieldAt_littleEndian 3 henv]
  have hgain : fieldAt w.layout 12 4 = w.gain.toUInt32.toNat := by
    simp [layout, fieldAt_append, fieldAt_cons, fieldAt_littleEndian 4 w.gain.toUInt32.toNat_lt]
  have hlength : fieldAt w.layout 16 4 = w.length.toNat := by
    simp [layout, fieldAt_append, fieldAt_cons, fieldAt_littleEndian 4 w.length.toNat_lt]
  have hconf : fieldAt w.layout 20 2 = w.conf.toNat := by
    simp [layout, fieldAt_append, fieldAt_cons, fieldAt_littleEndian 2 w.conf.toNat_lt]
  simp [ofRow, hfreq, hphase, hstored, hgain, hlength, hconf]

/-- A row has its full length, and the wave is read back from it. -/
theorem ofRow_of_row {w : Wave} {row : List UInt8} (h : w.row = .ok row) : row.length = rowBytes ∧ ofRow row = w := by
  obtain ⟨henv, rfl⟩ := row_eq_ok_iff.mp h
  exact ⟨w.length_layout, ofRow_layout henv⟩

end Wave

/-! ### The table -/

namespace WaveTable

variable {t : WaveTable} {requests : List (String × Wave)} {name : String} {index : ℕ}

/-- The index finds each wave under its name, and nothing else. -/
def Indexed (t : WaveTable) : Prop := Indexes t.index (·.1) t.entries

theorem Indexed.indexOf?_eq_none_iff (h : t.Indexed) : t.indexOf? name = none ↔ ∀ e ∈ t.entries, e.1 ≠ name :=
  h.lookup_eq_none_iff

/-- Names and rows agree: the index of a name is the place of its entry. -/
theorem Indexed.indexOf?_eq_some_iff (h : t.Indexed) :
    t.indexOf? name = some index ↔ ∃ w, t.entries[index]? = some (name, w) := by
  refine (h name index).trans ⟨?_, ?_⟩
  · rintro ⟨⟨_, w⟩, he, rfl⟩
    exact ⟨w, he⟩
  · rintro ⟨w, he⟩
    exact ⟨(name, w), he, rfl⟩

/-- A wave is added at the end of the table, under a name that the index does not have. -/
theorem add_eq_ok_iff {w : Wave} {t' : WaveTable} :
    t.add name w = .ok (index, t') ↔ t.indexOf? name = none ∧ index = t.entries.length ∧
      t' = ⟨t.entries ++ [(name, w)], (name, t.entries.length) :: t.index⟩ := by
  unfold add
  cases t.indexOf? name with
  | some _ => simp
  | none =>
    simp only [Except.ok.injEq, Prod.mk.injEq, true_and]
    exact and_congr eq_comm eq_comm

theorem add_of_fresh (h : t.indexOf? name = none) (w : Wave) :
    t.add name w = .ok (t.entries.length, ⟨t.entries ++ [(name, w)], (name, t.entries.length) :: t.index⟩) :=
  add_eq_ok_iff.mpr ⟨h, rfl, rfl⟩

theorem add_of_taken (h : t.indexOf? name = some index) (w : Wave) :
    t.add name w = .error (.duplicateName .wave 0 name) := by
  unfold add
  rw [h]

/-- A row that was found under a name is found under it when there is one more. -/
theorem indexOf?_of_add {w : Wave} {t' : WaveTable} {other : String} {row : ℕ} (h : t.add name w = .ok (index, t'))
    (hrow : t.indexOf? other = some row) : t'.indexOf? other = some row := by
  obtain ⟨hnew, -, rfl⟩ := add_eq_ok_iff.mp h
  have hne : other ≠ name := by
    rintro rfl
    rw [hnew] at hrow
    cases hrow
  rw [indexOf?, List.lookup_cons, beq_eq_false_iff_ne.mpr hne]
  exact hrow

theorem indexed_empty : empty.Indexed := Indexes.nil _

theorem Indexed.add {w : Wave} {t' : WaveTable} (ht : t.Indexed) (h : t.add name w = .ok (index, t')) : t'.Indexed := by
  obtain ⟨hnew, -, rfl⟩ := add_eq_ok_iff.mp h
  exact Indexes.concat (a := (name, w)) ht hnew

/-! ### Requests -/

/-- Add a wave in place: its name goes to the index, and then the wave to the end. -/
def addInPlace (name : String) (w : Wave) : InPlace Error WaveTable ℕ := do
  let t ← get
  if (t.indexOf? name).isSome then throw (.duplicateName .wave 0 name)
  let row := t.entries.length
  modify fun t => { t with index := (name, row) :: t.index }
  modify fun t => { t with entries := t.entries ++ [(name, w)] }
  return row

/-- In place or not, adding comes to the same, and if it fails nothing has been written. -/
theorem addInPlace_apply (name : String) (w : Wave) (t : WaveTable) :
    (addInPlace name w).apply t = leave t (t.add name w) := by
  unfold addInPlace add
  rw [InPlace.apply_get_bind]
  cases t.indexOf? name with
  | none => rfl
  | some row => rfl

/-- The table after a request; one that is refused leaves it as it is. -/
def request (t : WaveTable) (r : String × Wave) : WaveTable := ((addInPlace r.1 r.2).apply t).2

theorem request_of_ok {r : String × Wave} {t' : WaveTable} (h : t.add r.1 r.2 = .ok (index, t')) : t.request r = t' := by
  rw [request, addInPlace_apply, h, leave]

theorem request_of_error {r : String × Wave} {e : Error} (h : t.add r.1 r.2 = .error e) : t.request r = t := by
  rw [request, addInPlace_apply, h, leave]

/-- The table after any sequence of requests, those that are refused included. -/
def requestAll (t : WaveTable) (rs : List (String × Wave)) : WaveTable := rs.foldl request t

/-- The table has one wave under each name that was requested, the one that came first, and
its index agrees with its rows. -/
structure Keeps (t : WaveTable) (requests : List (String × Wave)) : Prop where
  indexed : t.Indexed
  mem_iff : ∀ e, e ∈ t.entries ↔ requests.find? (·.1 = e.1) = some e

namespace Keeps

theorem nil : empty.Keeps [] := ⟨indexed_empty, fun e => by simp [empty]⟩

/-- A name is taken exactly if it was requested. -/
theorem isSome_find? (h : t.Keeps requests) (name : String) :
    (requests.find? (·.1 = name)).isSome ↔ ∃ e ∈ t.entries, e.1 = name := by
  constructor
  · intro hsome
    obtain ⟨e, he⟩ := Option.isSome_iff_exists.mp hsome
    obtain rfl : e.1 = name := by simpa using List.find?_some he
    exact ⟨e, (h.mem_iff e).mpr he, rfl⟩
  · rintro ⟨e, he, rfl⟩
    rw [(h.mem_iff e).mp he]
    rfl

/-- One more request: the name is new, and its wave is found after all others, or it is taken,
and the wave that is found under it does not change. -/
theorem request (h : t.Keeps requests) (r : String × Wave) : (t.request r).Keeps (requests ++ [r]) := by
  have hother : ∀ e : String × Wave, e.1 ≠ r.1 → (requests ++ [r]).find? (·.1 = e.1) = requests.find? (·.1 = e.1) := by
    intro e hne
    rw [List.find?_append, List.find?_cons_of_neg (by simpa using hne.symm), List.find?_nil, Option.or_none]
  have hsame : (requests ++ [r]).find? (·.1 = r.1) = (requests.find? (·.1 = r.1)).or (some r) := by
    rw [List.find?_append, List.find?_cons_of_pos (by simp)]
  cases hindex : t.indexOf? r.1 with
  | none =>
    -- no request before had the name, so the new one is the first of it
    have hadd := add_of_fresh hindex r.2
    rw [h.indexed.indexOf?_eq_none_iff] at hindex
    rw [request_of_ok hadd]
    refine ⟨h.indexed.add hadd, fun e => ?_⟩
    rw [List.mem_append, List.mem_singleton, h.mem_iff]
    by_cases hname : e.1 = r.1
    · have hnone : requests.find? (·.1 = r.1) = none := by
        rw [← Option.not_isSome_iff_eq_none, h.isSome_find?]
        rintro ⟨e, he, hname⟩
        exact hindex e he hname
      rw [hname, hsame, hnone]
      simp [eq_comm (a := r)]
    · have hne : e ≠ r := fun heq => hname (heq ▸ rfl)
      rw [hother e hname]
      simp [hne]
  | some index =>
    -- a request before had the name, and comes first in the longer list as well
    rw [request_of_error (add_of_taken hindex _)]
    refine ⟨h.indexed, fun e => ?_⟩
    rw [h.mem_iff]
    by_cases hname : e.1 = r.1
    · have hsome : (requests.find? (·.1 = r.1)).isSome := by
        rw [h.isSome_find?]
        by_contra hfresh
        have hnone : t.indexOf? r.1 = none :=
          h.indexed.indexOf?_eq_none_iff.mpr fun e he hname => hfresh ⟨e, he, hname⟩
        rw [hindex] at hnone
        cases hnone
      rw [hname, hsame, Option.or_of_isSome hsome]
    · rw [hother e hname]

theorem requestAll (requests : List (String × Wave)) : (empty.requestAll requests).Keeps requests := by
  unfold WaveTable.requestAll
  induction requests using List.reverseRecOn with
  | nil => exact nil
  | append_singleton requests r ih =>
    rw [List.foldl_concat]
    exact ih.request r

end Keeps

theorem exists_rows_iff : (∃ rows, t.rows = .ok rows) ↔ ∀ e ∈ t.entries, e.2.env.toNat < Wave.envLimit := by
  unfold rows
  simp only [exists_mapM_iff, Wave.exists_row_iff]

end WaveTable

/-- **Rows lose nothing.** A wave has a row exactly if the address of its envelope has 24 bits. The
fields of the wave are read back from their places in the row, what stands between and behind them is
zero, and so waves that differ have different rows.

A table that comes from any sequence of requests in place, those that are refused included, has the
waves that were requested first under their names and no others, and its index finds exactly the names
of these, at their rows. It has rows exactly if all of these have. Then there is a row for each of them,
and the row at the index of a name is the row of the wave that was requested first under that name. -/
theorem wave_rows_lossless (w : Wave) (requests : List (String × Wave)) (t : WaveTable)
    (ht : t = WaveTable.empty.requestAll requests) :
    ((∃ row, w.row = .ok row) ↔ w.env.toNat < 2 ^ 24) ∧
    (∀ row, w.row = .ok row →
      row.length = 32 ∧ Wave.ofRow row = w ∧ row[11]? = some 0 ∧ row.drop 22 = List.replicate 10 0) ∧
    (∀ w' row, w.row = .ok row → w'.row = .ok row → w = w') ∧
    (∀ e, e ∈ t.entries ↔ requests.find? (·.1 = e.1) = some e) ∧
    (∀ name index, t.index.lookup name = some index ↔ ∃ w, t.entries[index]? = some (name, w)) ∧
    (∀ name w, ((∃ row t', t.add name w = .ok (row, t')) ↔ ∀ e ∈ t.entries, e.1 ≠ name) ∧
      ∀ e, t.add name w = .error e → (WaveTable.addInPlace name w).apply t = (.error e, t)) ∧
    ((∃ rows, t.rows = .ok rows) ↔ ∀ e ∈ t.entries, e.2.env.toNat < 2 ^ 24) ∧
    ∀ rows, t.rows = .ok rows →
      rows.length = t.entries.length ∧
      (∀ index < rows.length, ∃ name, t.indexOf? name = some index) ∧
      (∀ name, requests.find? (·.1 = name) = none → t.indexOf? name = none) ∧
      ∀ name first, requests.find? (·.1 = name) = some first →
        ∃ index row, t.indexOf? name = some index ∧ first.2.row = .ok row ∧ rows[index]? = some row := by
  have hkeeps : t.Keeps requests := ht ▸ .requestAll requests
  refine ⟨Wave.exists_row_iff, ?_, ?_, hkeeps.mem_iff, fun name index => hkeeps.indexed.indexOf?_eq_some_iff,
    fun name w => ⟨?_, fun e he => ?_⟩, WaveTable.exists_rows_iff, fun rows hrows => ⟨?_, ?_, ?_, ?_⟩⟩
  · intro row hrow
    obtain ⟨hlength, hread⟩ := Wave.ofRow_of_row hrow
    obtain ⟨-, rfl⟩ := Wave.row_eq_ok_iff.mp hrow
    refine ⟨hlength, hread, ?_, ?_⟩
    · simp [Wave.layout]
    · simp [Wave.layout, List.drop_append, List.drop_eq_nil_of_le]
  · intro w' row hrow hrow'
    rw [← (Wave.ofRow_of_row hrow).2, (Wave.ofRow_of_row hrow').2]
  · rw [← hkeeps.indexed.indexOf?_eq_none_iff]
    constructor
    · rintro ⟨row, t', h⟩
      exact (WaveTable.add_eq_ok_iff.mp h).1
    · exact fun hnone => ⟨_, _, WaveTable.add_of_fresh hnone w⟩
  · rw [WaveTable.addInPlace_apply, he, leave]
  · exact (mapM_eq_ok_iff.mp hrows).length_eq.symm
  · intro index hindex
    have hlength := (mapM_eq_ok_iff.mp hrows).length_eq
    have hentry := List.getElem?_eq_getElem (hlength ▸ hindex : index < t.entries.length)
    exact ⟨_, hkeeps.indexed.indexOf?_eq_some_iff.mpr ⟨_, hentry⟩⟩
  · intro name hnone
    rw [hkeeps.indexed.indexOf?_eq_none_iff]
    intro e he hname
    have hsome := (hkeeps.isSome_find? name).mpr ⟨e, he, hname⟩
    rw [hnone] at hsome
    cases hsome
  · intro name first hfirst
    obtain rfl : first.1 = name := by simpa using List.find?_some hfirst
    obtain ⟨index, hentry⟩ := List.mem_iff_getElem?.mp ((hkeeps.mem_iff first).mpr hfirst)
    obtain ⟨row, hrow, hat⟩ := exists_getElem?_of_mapM hrows hentry
    exact ⟨index, row, hkeeps.indexed.indexOf?_eq_some_iff.mpr ⟨first.2, hentry⟩, hrow, hat⟩

/-- A wave whose gain is negative. -/
def negativeWave : Wave := ⟨0x01020304, 5, 0xffffff, -2, 7, 8⟩

/-- Requests of which the last is refused, and with it a wave that has no row. -/
def refusedRequests : List (String × Wave) :=
  [("a", negativeWave), ("b", { negativeWave with gain := 2 }), ("a", { negativeWave with env := 0x1000000 })]

theorem wave_rows_lossless_refused :
    ∃ t rows index row, t = WaveTable.empty.requestAll refusedRequests ∧ t.rows = .ok rows ∧ rows.length = 2 ∧
      t.indexOf? "a" = some index ∧ rows[index]? = some row ∧ Wave.ofRow row = negativeWave := by
  obtain ⟨-, hread, -, -, -, -, hsuccess, hrows⟩ := wave_rows_lossless negativeWave refusedRequests _ rfl
  obtain ⟨rows, ht⟩ := hsuccess.mpr (by decide)
  obtain ⟨hlength, -, -, hnames⟩ := hrows rows ht
  obtain ⟨index, row, hindex, hrow, hat⟩ := hnames "a" ("a", negativeWave) (by decide)
  exact ⟨_, rows, index, row, rfl, ht, hlength, hindex, hat, (hread row hrow).2.1⟩

end PulseAsm
