import PulseAsm.Proofs.Program.Calls
import PulseAsm.Proofs.Program.OutputCode
import PulseAsm.Proofs.Program.Persistence
import PulseAsm.Proofs.Program.Reservation
import PulseAsm.Proofs.Pulse
import PulseAsm.Proofs.Wave

/-!
# Pulses and their rows

A pulse that is stored puts its segments into the wave table, one row each, under names
that are made of the generator, the name of the pulse and the number of the segment.
Different segments have different names (`waveName_inj`), whatever the pulses are called,
so the rows of a new pulse never clash with those that are there.

`Tabled` says how the table is made: the rows of all pulses, pulse after pulse. It holds
of every program that can be built (`Reachable.tabled`).
-/

namespace PulseAsm

/-! ### The names of rows -/

/-- The name of a row: the generator, the pulse and the number of the segment. -/
def waveName (ch : ℕ) (name : String) (k : ℕ) : String := s!"g{ch}_{name}_w{k}"

/-- The part of the name of a row that follows the generator. -/
def segmentName (name : String) (k : ℕ) : String := s!"{name}_w{k}"

/-- Read backwards, the digits of a number end where a letter stands. -/
theorem takeWhile_reverse_repr (k : ℕ) (l : List Char) :
    (k.repr.toList.reverse ++ 'w' :: l).takeWhile (· ≠ 'w') = k.repr.toList.reverse := by
  rw [List.takeWhile_append_of_pos fun c hc =>
    decide_eq_true (Program.ne_of_mem_repr (by decide) (List.mem_reverse.mp hc))]
  simp

/-- The number of a segment is what follows the last letter, though the name of the pulse
may look like a row itself. -/
theorem segmentName_inj {x y : String} {j k : ℕ} (h : segmentName x j = segmentName y k) : x = y ∧ j = k := by
  have hlist := congrArg (List.reverse ∘ String.toList) h
  simp only [segmentName, Function.comp_apply, String.toList_append, toString, List.reverse_append, List.append_assoc] at hlist
  have hrest : j.repr.toList.reverse ++ 'w' :: ('_' :: x.toList.reverse) =
      k.repr.toList.reverse ++ 'w' :: ('_' :: y.toList.reverse) := hlist
  have hdigits : j.repr.toList.reverse = k.repr.toList.reverse := by
    rw [← takeWhile_reverse_repr j, hrest, takeWhile_reverse_repr]
  rw [hdigits] at hrest
  have hname : '_' :: x.toList.reverse = '_' :: y.toList.reverse :=
    (List.cons.inj (List.append_cancel_left hrest)).2
  exact ⟨String.toList_inj.mp (List.reverse_injective (List.cons.inj hname).2),
    Program.eq_of_toList_repr (List.reverse_injective hdigits)⟩

/-- The name of a row tells the generator, the pulse and the segment. -/
theorem waveName_inj {ch ch' j k : ℕ} {x y : String} (h : waveName ch x j = waveName ch' y k) :
    ch = ch' ∧ x = y ∧ j = k := by
  have hsplit : ∀ (ch : ℕ) (x : String) (k : ℕ), waveName ch x k = s!"g{ch}_{segmentName x k}" := by
    intro ch x k
    simp only [waveName, segmentName, toString, String.append_assoc]
  rw [hsplit, hsplit] at h
  obtain ⟨hch, hrest⟩ := Program.pulseName_inj h
  exact ⟨hch, segmentName_inj hrest⟩

/-! ### Rows of pulses -/

/-- Waves under the names of segments, numbered from `k`. -/
def namedWaves (ch : ℕ) (name : String) (k : ℕ) (ws : List Wave) : List (String × Wave) :=
  (ws.zipIdx k).map fun s => (waveName ch name s.2, s.1)

theorem getElem?_namedWaves (ch : ℕ) (name : String) (k : ℕ) (ws : List Wave) (j : ℕ) :
    (namedWaves ch name k ws)[j]? = (ws[j]?).map fun w => (waveName ch name (k + j), w) := by
  simp [namedWaves, Function.comp_def]

@[simp] theorem length_namedWaves (ch : ℕ) (name : String) (k : ℕ) (ws : List Wave) :
    (namedWaves ch name k ws).length = ws.length := by
  simp [namedWaves]

/-- The rows of a stored pulse. -/
def StoredPulse.rows (e : StoredPulse) : List (String × Wave) := namedWaves e.ch e.name 0 e.pulse.waves

/-- A table that holds the rows of pulses and nothing else, pulse after pulse; each pulse
refers to its rows, and has an offset for each of them. -/
inductive Tabled : List StoredPulse → List (String × Wave) → Prop where
  | nil : Tabled [] []
  | concat {es : List StoredPulse} {rows : List (String × Wave)} (h : Tabled es rows) (e : StoredPulse)
      (hwaves : e.waves = List.range' rows.length e.pulse.waves.length)
      (hoffsets : e.pulse.offsets.length = e.pulse.waves.length) : Tabled (es ++ [e]) (rows ++ e.rows)

namespace Tabled

variable {es : List StoredPulse} {rows : List (String × Wave)} {e : StoredPulse}

theorem length_offsets (h : Tabled es rows) (he : e ∈ es) : e.pulse.offsets.length = e.pulse.waves.length := by
  induction h with
  | nil => cases he
  | concat h e' hwaves hoffsets ih =>
    rcases List.mem_append.mp he with he | he
    · exact ih he
    · rwa [List.mem_singleton.mp he]

/-- The rows of a pulse stand together, in the order of its segments. -/
theorem exists_base (h : Tabled es rows) (he : e ∈ es) :
    ∃ base, e.waves = List.range' base e.pulse.waves.length ∧
      ∀ j w, e.pulse.waves[j]? = some w → rows[base + j]? = some (waveName e.ch e.name j, w) := by
  induction h with
  | nil => cases he
  | @concat es rows h e' hwaves hoffsets ih =>
    rcases List.mem_append.mp he with he | he
    · obtain ⟨base, hrange, hrows⟩ := ih he
      refine ⟨base, hrange, fun j w hw => ?_⟩
      have hrow := hrows j w hw
      rwa [List.getElem?_append_left (List.getElem?_eq_some_iff.mp hrow).1]
    · obtain rfl := List.mem_singleton.mp he
      refine ⟨rows.length, hwaves, fun j w hw => ?_⟩
      rw [List.getElem?_append_right (Nat.le_add_right _ _), Nat.add_sub_cancel_left, StoredPulse.rows,
        getElem?_namedWaves, hw, Nat.zero_add]
      rfl

/-- The row that a pulse has for a segment holds the wave of that segment. -/
theorem row_of_index (h : Tabled es rows) (he : e ∈ es) {j index : ℕ} (hj : e.waves[j]? = some index) :
    ∃ w, e.pulse.waves[j]? = some w ∧ rows[index]? = some (waveName e.ch e.name j, w) := by
  obtain ⟨base, hrange, hrows⟩ := h.exists_base he
  have hlt : j < e.pulse.waves.length := by
    have hj' := (List.getElem?_eq_some_iff.mp hj).1
    rwa [hrange, List.length_range'] at hj'
  rw [hrange, List.getElem?_range' hlt, Nat.one_mul] at hj
  obtain rfl := Option.some.inj hj
  exact ⟨_, List.getElem?_eq_getElem hlt, hrows j _ (List.getElem?_eq_getElem hlt)⟩

/-- Every row belongs to a segment of a pulse. -/
theorem exists_pulse (h : Tabled es rows) {index : ℕ} (hindex : index < rows.length) :
    ∃ e ∈ es, ∃ j : ℕ, e.waves[j]? = some index := by
  induction h with
  | nil => cases hindex
  | @concat es rows h e hwaves hoffsets ih =>
    by_cases hlt : index < rows.length
    · obtain ⟨e', he', j, hj⟩ := ih hlt
      exact ⟨e', List.mem_append_left _ he', j, hj⟩
    · rw [List.length_append, StoredPulse.rows, length_namedWaves] at hindex
      refine ⟨e, List.mem_append_right _ (List.mem_singleton_self e), index - rows.length, ?_⟩
      rw [hwaves, List.getElem?_range' (by omega), Nat.one_mul, Nat.add_sub_cancel' (Nat.le_of_not_lt hlt)]

/-- A name in the table is that of a segment of a pulse. -/
theorem exists_name (h : Tabled es rows) {r : String × Wave} (hr : r ∈ rows) :
    ∃ e ∈ es, ∃ j, r.1 = waveName e.ch e.name j := by
  obtain ⟨index, hindex, hget⟩ := List.mem_iff_getElem.mp hr
  obtain ⟨e, he, j, hj⟩ := h.exists_pulse hindex
  obtain ⟨w, -, hrow⟩ := h.row_of_index he hj
  rw [List.getElem?_eq_getElem hindex, hget] at hrow
  exact ⟨e, he, j, by rw [Option.some.inj hrow]⟩

end Tabled

/-! ### Errors of compilation -/

/-- The computation does not fail on account of a name that is taken. -/
def Clashless {α : Type} (x : Except Error α) : Prop := ∀ item ch name, x ≠ .error (.duplicateName item ch name)

namespace Clashless

variable {α β : Type}

theorem ok (a : α) : Clashless (.ok a) := fun _ _ _ h => nomatch h

theorem error {e : Error} (he : ∀ item ch name, e ≠ .duplicateName item ch name) : Clashless (.error e : Except Error α) :=
  fun item ch name h => he item ch name (Except.error.inj h)

theorem bind {x : Except Error α} {f : α → Except Error β} (hx : Clashless x) (hf : ∀ a, Clashless (f a)) :
    Clashless (x >>= f) := by
  intro item ch name h
  rcases bind_eq_error_iff.mp h with h | ⟨a, -, h⟩
  · exact hx item ch name h
  · exact hf a item ch name h

end Clashless

namespace Pulse

variable {ch : ℕ} {board : Board}

theorem clashless_gen : Clashless (board.gen ch) := by
  unfold Board.gen
  split
  · exact .ok _
  · exact .error (by simp)

theorem clashless_carrier (style : Style) (ps : Params) : Clashless (carrier style ps ch board) := by
  unfold carrier
  split
  · refine .bind ?_ fun _ => .bind ?_ fun _ => .bind ?_ fun _ => .ok _
    · refine .bind clashless_gen fun g => ?_
      split
      · exact .ok _
      · exact .error (by simp [Error.outOfRange])
    · unfold degToReg
      split
      · exact .ok _
      · exact .error (by simp [Error.outOfRange])
    · refine .bind clashless_gen fun g => ?_
      split
      · split
        · exact .ok _
        · exact .error (by simp [Error.outOfRange])
      · exact .error (by simp [Error.outOfRange])
  · exact .error (by simp)

theorem clashless_wave {c : Carrier} {gain : ℤ} {length env : ℕ} {source : OutputSource} {mode : Option RunMode}
    {phaseReset : Option Bool} : Clashless (c.wave gain length env source mode phaseReset) := by
  unfold Carrier.wave
  split
  · exact .ok _
  · exact .error (by simp [Error.outOfRange])

theorem clashless_segments (style : Style) (c : Carrier) (ps : Params) (env : Option (ℕ × ℕ)) :
    Clashless (segments style c ps env) := by
  unfold segments
  split
  · exact .bind clashless_wave fun _ => .ok _
  · exact .bind clashless_wave fun _ => .ok _
  · exact .bind clashless_wave fun _ => .bind clashless_wave fun _ => .bind clashless_wave fun _ => .ok _
  · exact .error (by simp)

theorem clashless_envelopeClocks (lib : EnvelopeLibrary) (name : String) : Clashless (envelopeClocks lib name) := by
  refine .bind ?_ fun _ => .ok _
  unfold EnvelopeLibrary.get
  split
  · exact .ok _
  · exact .error (by simp)

theorem clashless_compile (style : Style) (ps : Params) (lib : EnvelopeLibrary) :
    Clashless (compile style ps ch board lib) := by
  have hsegments : ∀ c env, Clashless (segments style c ps env >>= fun segs => (.ok {
      style
      params := ps
      waves := segs.waves
      offsets := segs.offsets
      length := segs.waves.foldl (fun n w => n + w.length.toNat) 0 } : Except Error Pulse)) :=
    fun c env => .bind (clashless_segments style c ps env) fun _ => .ok _
  refine .bind ?_ fun _ => .bind (clashless_carrier style ps) fun c => ?_
  · unfold Params.validate
    dsimp only
    split
    · exact .error (by simp)
    · split
      · exact .error (by simp)
      · exact .ok _
  · dsimp only
    split
    · exact .bind (.bind (clashless_envelopeClocks lib _) fun _ => .ok _) (hsegments c)
    · exact hsegments c none

end Pulse

/-! ### Storing a pulse -/

namespace Build

variable {p : Program} {ch : ℕ} {name : String}

/-- Waves are added without fail if no row has a name of theirs. -/
theorem addWaves_apply {k : ℕ} (ws : List Wave) (hp : p.waves.Indexed)
    (h : ∀ j ≥ k, ∀ r ∈ p.waves.entries, r.1 ≠ waveName ch name j) :
    ∃ waves : WaveTable, waves.entries = p.waves.entries ++ namedWaves ch name k ws ∧
      (addWaves ch name k ws).apply p =
        (.ok (List.range' p.waves.entries.length ws.length), { p with waves }) := by
  induction ws generalizing k p with
  | nil => exact ⟨p.waves, by simp [namedWaves], rfl⟩
  | cons w ws ih =>
    have hfresh : ∀ j ≥ k + 1, ∀ r ∈ p.waves.entries ++ [(waveName ch name k, w)], r.1 ≠ waveName ch name j := by
      intro j hj r hr
      rcases List.mem_append.mp hr with hr | hr
      · exact h j (by omega) r hr
      · rw [List.mem_singleton.mp hr]
        intro hname
        exact absurd (waveName_inj hname).2.2 (by omega)
    have hnone := hp.indexOf?_eq_none_iff.mpr (h k (Nat.le_refl k))
    have hadd : p.waves.add s!"g{ch}_{name}_w{k}" w = _ := WaveTable.add_of_fresh hnone w
    obtain ⟨waves, hentries, happly⟩ := ih (p := { p with waves := _ }) (hp.add hadd) hfresh
    refine ⟨waves, by simpa [namedWaves] using hentries, ?_⟩
    unfold addWaves
    rw [apply_get_bind, apply_lift_bind, hadd]
    dsimp only
    rw [apply_bind, apply_set]
    dsimp only
    rw [apply_bind, happly]
    simp [List.range'_succ]

/-- A pulse is stored with its rows at the end of the table, or nothing is done; there is
always room for the names of its rows. -/
theorem addPulse_cases {style : Style} {params : Params} (hindexed : p.waves.Indexed)
    (hp : Tabled p.pulses p.waves.entries) :
    (∃ err, (addPulse ch name style params).apply p = (.error err, p) ∧ ∀ n s, err ≠ .duplicateName .wave n s) ∨
      ∃ lib pulse waves, p.library ch = .ok lib ∧ Pulse.compile style params ch p.board lib = .ok pulse ∧
        waves.entries = p.waves.entries ++ namedWaves ch name 0 pulse.waves ∧
        (addPulse ch name style params).apply p = (.ok (), { p with
          waves
          pulses := p.pulses ++
            [⟨ch, name, pulse, List.range' p.waves.entries.length pulse.waves.length⟩] }) := by
  unfold addPulse
  rw [apply_get_bind, apply_lift_bind]
  cases hlib : p.library ch with
  | error err =>
    refine Or.inl ⟨err, rfl, ?_⟩
    rintro n s rfl
    unfold Program.library at hlib
    split at hlib <;> cases hlib
  | ok lib =>
    dsimp only
    cases hfind : p.findPulse? ch name with
    | some e => exact Or.inl ⟨_, rfl, by simp⟩
    | none =>
      rw [apply_lift_bind]
      cases hcompile : Pulse.compile style params ch p.board lib with
      | error err =>
        refine Or.inl ⟨err, rfl, ?_⟩
        rintro n s rfl
        exact Pulse.clashless_compile style params lib .wave n s hcompile
      | ok pulse =>
        -- a row of the same name would be one of a pulse of the same name
        have hfresh : ∀ j ≥ 0, ∀ r ∈ p.waves.entries, r.1 ≠ waveName ch name j := by
          intro j _ r hr hname
          obtain ⟨e, he, k, hk⟩ := hp.exists_name hr
          obtain ⟨rfl, rfl, -⟩ := waveName_inj (hk.symm.trans hname)
          simpa using List.find?_eq_none.mp hfind e he
        obtain ⟨waves, hentries, happly⟩ := addWaves_apply pulse.waves hindexed hfresh
        refine Or.inr ⟨lib, pulse, waves, rfl, hcompile, hentries, ?_⟩
        dsimp only
        rw [apply_bind, happly]
        rfl

end Build

/-- The change concerns neither the wave table nor the pulses. -/
def Change.SparesPulses : Change → Prop
  | .wave .. | .pulse .. => False
  | _ => True

theorem Edits.pulses_eq {A : Change → Prop} {p q : Program} (h : Edits A p q) (hA : ∀ c, A c → c.SparesPulses) :
    q.pulses = p.pulses ∧ q.waves = p.waves := by
  refine h.preserves (P := fun q => q.pulses = p.pulses ∧ q.waves = p.waves) ⟨rfl, rfl⟩ fun c q r hc he ih => ?_
  cases he with
  | wave | pulse => exact (hA _ hc).elim
  | _ => exact ih

/-- The wave table of a program is made of the rows of its pulses. -/
theorem Reachable.tabled {board : Board} {p : Program} (h : Reachable board p) : Tabled p.pulses p.waves.entries := by
  have hpulse : ∀ (p : Program) ch name style params, p.waves.Indexed → Tabled p.pulses p.waves.entries →
      Tabled ((Build.addPulse ch name style params).apply p).2.pulses
        ((Build.addPulse ch name style params).apply p).2.waves.entries := by
    intro p ch name style params hindexed hp
    rcases Build.addPulse_cases hindexed hp with ⟨err, happly, -⟩ | ⟨lib, pulse, waves, -, hcompile, hentries, happly⟩
    · rw [happly]
      exact hp
    · rw [happly]
      show Tabled _ waves.entries
      rw [hentries]
      exact hp.concat ⟨ch, name, pulse, _⟩ rfl (Pulse.length_offsets_of_compile hcompile)
  have hspare : ∀ {A : Change → Prop} {p q : Program}, Edits A p q → (∀ c, A c → c.SparesPulses) →
      Tabled p.pulses p.waves.entries → Tabled q.pulses q.waves.entries := by
    intro A p q hedits hA hp
    rw [(hedits.pulses_eq hA).1, (hedits.pulses_eq hA).2]
    exact hp
  induction h with
  | start h =>
    obtain ⟨-, registers, -, rfl⟩ := Program.ofBoard_eq_ok_iff.mp h
    exact .nil
  | @step p s hp ih =>
    cases s with
    | pulse ch name params =>
      show Tabled ((Step.pulse ch name params).apply.apply p).2.pulses _
      unfold Step.apply
      rw [Build.apply_lift_bind]
      cases Params.ofMembers params with
      | error err => exact ih
      | ok res => exact hpulse p ch name res.1 res.2 hp.distinct.waves ih
    | _ =>
      refine hspare (Step.edits _ p) (fun c hc => ?_) ih
      cases hc <;> trivial
  | @newReg p r _ ih =>
    have hwithin : Build.Within Change.SparesPulses (Build.newReg r) p :=
      Build.newReg_within (fun _ _ => trivial) fun _ _ _ _ => trivial
    exact hspare hwithin (fun _ hc => hc) ih
  | addPulse ch name style params hp ih => exact hpulse _ ch name style params hp.distinct.waves ih

/-! ### Rows that are played -/

/-- The instructions that play rows are those of the segments. -/
theorem Build.Plays.filter_wseti {board : Board} {ch start : ℕ} {segments : List (ℕ × ℕ)} {is : List Instr}
    (h : Build.Plays board ch start segments is) :
    is.filter (fun i => i.mnemonic = "wseti") = (segments.map (·.1)).map (Build.playInstr ch) := by
  induction h with
  | nil => rfl
  | @cons index offset cycles steps segments is hcycles hsteps hrest ih =>
    have hload : (steps.map (Build.loadInstr (PulseRegs.ofGen ch).page (PulseRegs.ofGen ch).time)).filter
        (fun i => i.mnemonic = "wseti") = [] := by
      rw [List.filter_eq_nil_iff]
      intro i hi
      obtain ⟨s, -, rfl⟩ := List.mem_map.mp hi
      cases s <;> simp [Build.loadInstr]
    rw [List.filter_append, hload, List.nil_append, List.filter_cons_of_pos (by simp [Build.playInstr]), ih]
    rfl

/-- From here on, a row of the table holds a wave and serializes it, whatever is added: the wave
is read back from the row. -/
def Program.KeepsRow (p : Program) (index : ℕ) (w : Wave) : Prop :=
  ∀ calls, (p.afterCalls calls).waves.get? index = some w ∧
    ∀ rows, (p.afterCalls calls).waves.rows = .ok rows →
      ∃ row, rows[index]? = some row ∧ w.row = .ok row ∧ row.length = 32 ∧ Wave.ofRow row = w

theorem Program.keepsRow_of_getElem? {p : Program} {index : ℕ} {name : String} {w : Wave}
    (h : p.waves.entries[index]? = some (name, w)) : p.KeepsRow index w := by
  intro calls
  have hlater : (p.afterCalls calls).waves.entries[index]? = some (name, w) := by
    obtain ⟨new, hnew⟩ := (p.extends_afterCalls calls).waves
    rw [← hnew, List.getElem?_append_left (List.getElem?_eq_some_iff.mp h).1, h]
  refine ⟨by rw [WaveTable.get?, hlater]; rfl, fun rows hrows => ?_⟩
  obtain ⟨row, hrow, hat⟩ := exists_getElem?_of_mapM hrows hlater
  exact ⟨row, hat, hrow, Wave.ofRow_of_row hrow⟩

namespace Reachable

variable {board : Board} {p q : Program}

/-- A row belongs to one segment of one pulse. -/
theorem existsUnique_segment (h : Reachable board p) {index : ℕ} (hindex : index < p.waves.entries.length) :
    ∃! s : StoredPulse × ℕ, s.1 ∈ p.pulses ∧ s.1.waves[s.2]? = some index := by
  obtain ⟨e, he, j, hj⟩ := h.tabled.exists_pulse hindex
  refine ⟨(e, j), ⟨he, hj⟩, ?_⟩
  rintro ⟨e', j'⟩ ⟨he', hj'⟩
  -- the row has one name, and the name tells the pulse and the segment
  obtain ⟨w, -, hrow⟩ := h.tabled.row_of_index he hj
  obtain ⟨w', -, hrow'⟩ := h.tabled.row_of_index he' hj'
  rw [hrow] at hrow'
  obtain ⟨hname, -⟩ := Prod.mk.inj (Option.some.inj hrow')
  obtain ⟨hch, hpulse, rfl⟩ := waveName_inj hname
  have hkey : (e'.ch, e'.name) = (e.ch, e.name) := by rw [hch, hpulse]
  have heq : e' = e := List.inj_on_of_nodup_map h.distinct.pulses he' he hkey
  rw [heq]

/-- The rows that playing a pulse refers to, in order, are those of its first segments,
and of all of them if it succeeds. -/
theorem rows_of_play (h : Reachable board p) {ch : ℕ} {name : String} {time : Time} {res : Except Error ℕ}
    (hplay : (Build.play ch name time).apply p = (res, q)) :
    ∃ indices : List ℕ, (p.appended q).filter (fun i => i.mnemonic = "wseti") = indices.map (Build.playInstr ch) ∧
      (∀ t, res = .ok t → (p.findPulse? ch name).map (·.waves) = some indices) ∧
      ∀ j index : ℕ, indices[j]? = some index → ∃ e w, p.findPulse? ch name = some e ∧ e.waves[j]? = some index ∧
        e.pulse.waves[j]? = some w ∧ q.KeepsRow index w := by
  rcases Build.code_of_play hplay with ⟨hnone, err, hres⟩ |
      ⟨e, -, start, played, hfind, -, hprefix, hall, hplays, hadds⟩
  · refine ⟨[], by rw [hnone]; rfl, fun t ht => ?_, fun j index hj => nomatch hj⟩
    rw [hres] at ht
    cases ht
  · have he : e ∈ p.pulses := List.mem_of_find?_eq_some hfind
    refine ⟨played.map (·.1), hplays.filter_wseti, fun t ht => ?_, fun j index hj => ?_⟩
    · obtain ⟨base, hrange, -⟩ := h.tabled.exists_base he
      have hlength : e.waves.length ≤ e.pulse.offsets.length := by
        rw [hrange, List.length_range', h.tabled.length_offsets he]
      rw [(hall t ht).2, hfind, List.map_fst_zip hlength]
      rfl
    · rw [List.getElem?_map, Option.map_eq_some_iff] at hj
      obtain ⟨s, hs, rfl⟩ := hj
      have hzip : (e.waves.zip e.pulse.offsets)[j]? = some s := by
        obtain ⟨rest, hrest⟩ := hprefix
        rw [← hrest, List.getElem?_append_left (List.getElem?_eq_some_iff.mp hs).1, hs]
      obtain ⟨hindex, -⟩ := List.getElem?_zip_eq_some.mp hzip
      obtain ⟨w, hw, hrow⟩ := h.tabled.row_of_index he hindex
      obtain ⟨timeline, new, next, -, rfl⟩ := hadds
      exact ⟨e, w, hfind, hindex, hw, Program.keepsRow_of_getElem? hrow⟩

/-- The table can be serialized if the envelope addresses of all segments fit. -/
theorem exists_rows_iff (h : Reachable board p) :
    (∃ rows, p.waves.rows = .ok rows) ↔ ∀ e ∈ p.pulses, ∀ w ∈ e.pulse.waves, w.env.toNat < Wave.envLimit := by
  unfold WaveTable.rows
  rw [exists_mapM_iff]
  simp only [Wave.exists_row_iff]
  constructor
  · intro hrows e he w hw
    obtain ⟨j, hj, rfl⟩ := List.mem_iff_getElem.mp hw
    obtain ⟨base, -, hget⟩ := h.tabled.exists_base he
    exact hrows _ (List.mem_of_getElem? (hget j _ (List.getElem?_eq_getElem hj)))
  · intro hpulses r hr
    obtain ⟨index, hindex, rfl⟩ := List.mem_iff_getElem.mp hr
    obtain ⟨e, he, j, hj⟩ := h.tabled.exists_pulse hindex
    obtain ⟨w, hw, hrow⟩ := h.tabled.row_of_index he hj
    rw [List.getElem?_eq_getElem hindex] at hrow
    rw [Option.some.inj hrow]
    exact hpulses e he w (List.mem_of_getElem? hw)

end Reachable

/-- **Pulses and rows of the wave table match**: in every program that can be built, a
pulse has a row for each of its segments, one after the other, which holds the wave of the
segment under the name of generator, pulse and segment; no two rows have the same name, the
index of the table finds each row by its name, and each belongs to one segment of one pulse.
A pulse that cannot be stored leaves the program as it was, and it is never a row that is in
the way.

So the instructions that play a pulse refer to its own rows, in order, and these hold the
waves of the segments whatever is built later. Once the table is serialized, the waves are
read back from the 32 bytes at these rows. -/
theorem pulses_match_waves {board : Board} {p : Program} (h : Reachable board p) :
    (∀ e ∈ p.pulses, e.pulse.offsets.length = e.pulse.waves.length ∧
      ∃ base, e.waves = List.range' base e.pulse.waves.length ∧
        ∀ j w, e.pulse.waves[j]? = some w → p.waves.entries[base + j]? = some (s!"g{e.ch}_{e.name}_w{j}", w)) ∧
    (p.waves.entries.map (·.1)).Nodup ∧
    (∀ name index, p.waves.indexOf? name = some index ↔ ∃ w, p.waves.entries[index]? = some (name, w)) ∧
    (∀ index < p.waves.entries.length,
      ∃! s : StoredPulse × ℕ, s.1 ∈ p.pulses ∧ s.1.waves[s.2]? = some index) ∧
    (∀ ch name style params,
      (∃ err, (Build.addPulse ch name style params).apply p = (.error err, p) ∧
        ∀ n s, err ≠ .duplicateName .wave n s) ∨
      ∃ lib pulse waves, p.library ch = .ok lib ∧ Pulse.compile style params ch p.board lib = .ok pulse ∧
        waves.entries = p.waves.entries ++ namedWaves ch name 0 pulse.waves ∧
        (Build.addPulse ch name style params).apply p = (.ok (), { p with
          waves
          pulses := p.pulses ++
            [⟨ch, name, pulse, List.range' p.waves.entries.length pulse.waves.length⟩] })) ∧
    (∀ ch name time res q, (Build.play ch name time).apply p = (res, q) →
      ∃ indices : List ℕ,
        (p.appended q).filter (fun i => i.mnemonic = "wseti") = indices.map (Build.playInstr ch) ∧
        (∀ t, res = .ok t → (p.findPulse? ch name).map (·.waves) = some indices) ∧
        ∀ j index : ℕ, indices[j]? = some index → ∃ e w, p.findPulse? ch name = some e ∧
          e.waves[j]? = some index ∧ e.pulse.waves[j]? = some w ∧ q.KeepsRow index w) ∧
    ((∃ rows, p.waves.rows = .ok rows) ↔
      ∀ e ∈ p.pulses, ∀ w ∈ e.pulse.waves, w.env.toNat < Wave.envLimit) := by
  refine ⟨fun e he => ⟨h.tabled.length_offsets he, h.tabled.exists_base he⟩, h.distinct.waves.nodup,
    fun name index => h.distinct.waves.indexOf?_eq_some_iff, fun index hindex => h.existsUnique_segment hindex,
    fun ch name style params => Build.addPulse_cases h.distinct.waves h.tabled, ?_, h.exists_rows_iff⟩
  intro ch name time res q hplay
  exact h.rows_of_play hplay

/-- A pulse, and a flat top that is called like the row of the pulse. -/
def lookalikeCalls : List Call :=
  [.step (.pulse 0 "tone"
      [("style", .str "const"), ("freq", .int 100), ("phase", .int 0), ("gain", .int 1), ("length", .int 40)]),
    .step (.triangle 0 "ramp" 6 none),
    .step (.pulse 0 "tone_w0"
      [("style", .str "flat_top"), ("freq", .int 100), ("phase", .int 0), ("gain", .int 1), ("length", .int 40),
        ("envelope", .str "ramp")])]

/-- The names stay apart, and playing the flat top refers to the rows after the first. -/
theorem pulses_match_waves_lookalike :
    ∃ p₀ p q, Program.ofBoard generatorBoard = .ok p₀ ∧ p₀.afterCalls lookalikeCalls = p ∧
      (Call.step (.play 0 "tone_w0" none)).run p = q ∧
      p.waves.entries.map (·.1) = ["g0_tone_w0", "g0_tone_w0_w0", "g0_tone_w0_w1", "g0_tone_w0_w2"] ∧
      (p.appended q).filter (fun i => i.mnemonic = "wseti") = [1, 2, 3].map (Build.playInstr 0) ∧
      (∀ index < 4, ∃! s : StoredPulse × ℕ, s.1 ∈ p.pulses ∧ s.1.waves[s.2]? = some index) ∧
      ∃ rows, p.waves.rows = .ok rows ∧
        (rows.map fun row => (row.length, Wave.ofRow row)) = p.waves.entries.map fun e => (32, e.2) := by
  have hrun : (Program.ofBoard generatorBoard).toOption.map (fun p₀ =>
      let p := p₀.afterCalls lookalikeCalls
      let q := (Call.step (.play 0 "tone_w0" none)).run p
      (p.waves.entries.map (·.1), (p.appended q).filter (fun i => i.mnemonic = "wseti"),
        decide (p.waves.rows.toOption.map (fun rows => rows.map fun row => (row.length, Wave.ofRow row)) =
          some (p.waves.entries.map fun e => (32, e.2))))) =
      some (["g0_tone_w0", "g0_tone_w0_w0", "g0_tone_w0_w1", "g0_tone_w0_w2"], [1, 2, 3].map (Build.playInstr 0),
        true) := by decide +kernel
  cases h₀ : Program.ofBoard generatorBoard with
  | error e =>
    rw [h₀] at hrun
    cases hrun
  | ok p₀ =>
    rw [h₀] at hrun
    obtain ⟨hnames, hplayed, hrows⟩ : _ ∧ _ ∧ _ := by simpa only [Except.toOption, Option.map_some, Option.some.injEq,
      Prod.mk.injEq] using hrun
    obtain ⟨-, -, -, hunique, -⟩ := pulses_match_waves ((Reachable.start h₀).afterCalls lookalikeCalls)
    have hlength : (p₀.afterCalls lookalikeCalls).waves.entries.length = 4 := by
      simpa using congrArg List.length hnames
    rw [hlength] at hunique
    refine ⟨p₀, _, _, rfl, rfl, rfl, hnames, hplayed, hunique, ?_⟩
    cases htable : (p₀.afterCalls lookalikeCalls).waves.rows with
    | error e =>
      rw [htable] at hrows
      cases hrows
    | ok rows =>
      rw [htable] at hrows
      exact ⟨rows, rfl, Option.some.inj (of_decide_eq_true hrows)⟩

end PulseAsm
