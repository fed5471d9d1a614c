import PulseAsm.Proofs.Program.Outputs

/-!
# What was built stays

A step only adds to a program, whether it succeeds or fails on the way: indices,
addresses and names that were given out before mean the same afterwards. That tables
grow at their ends is in `Program.Extends`; that an entry is never put over another one
is `Program.Distinct`, which holds of every program that can be built.

Time is the exception. A channel does not go back (`Timeline.Advances`) unless all of
them are put back at zero, and only two steps do that. It does not go back by wrapping
around either: a step that would take a channel past the last time of 64 bits fails, and
leaves the channel where it is.
-/

namespace PulseAsm

/-! ### One entry for a name -/

/-- No table of the program has two entries of a name, and where there is an index of the
names, it finds the entries. -/
structure Program.Distinct (p : Program) : Prop where
  labels : (p.labels.map (·.1)).Nodup
  registers : p.registers.Exact
  waves : p.waves.Indexed
  envelopes : ∀ lib ∈ p.envelopes, lib.Indexed
  pulses : (p.pulses.map fun e => (e.ch, e.name)).Nodup

namespace Program.Distinct

variable {p q : Program}

theorem empty {board : Board} (h : Program.ofBoard board = .ok p) : p.Distinct := by
  obtain ⟨-, registers, hall, rfl⟩ := Program.ofBoard_eq_ok_iff.mp h
  have hexact : registers.Exact :=
    RegisterFile.allocateAll_preserves hall (RegisterFile.exact_empty _ _) fun _ _ _ _ halloc hf => hf.allocate halloc
  refine ⟨List.nodup_nil, hexact, WaveTable.indexed_empty, ?_, List.nodup_nil⟩
  intro lib hlib
  obtain ⟨g, -, rfl⟩ := List.mem_map.mp hlib
  exact Indexes.nil _

/-- Each table refuses a name that it has. -/
theorem edit {c : Change} (he : Edit c p q) (h : p.Distinct) : q.Distinct := by
  cases he with
  | @bind _ name hnone =>
    refine { h with labels := nodup_keys_concat h.labels ?_ }
    intro e he heq
    simpa [heq] using List.lookup_eq_none_iff.mp hnone e he
  | allocate halloc => exact { h with registers := h.registers.allocate (RegisterFile.allocates_of_allocate halloc) }
  | wave hadd => exact { h with waves := h.waves.add hadd }
  | @envelope _ ch name lib lib' e idata qdata hlib hadd =>
    refine { h with envelopes := ?_ }
    intro lib₁ hlib₁
    rcases List.mem_or_eq_of_mem_set hlib₁ with hlib₁ | rfl
    · exact h.envelopes lib₁ hlib₁
    · obtain ⟨n, hadds⟩ := (EnvelopeLibrary.add_eq_ok_iff (r := ⟨name, idata, qdata⟩)).mp hadd
      exact (h.envelopes lib (List.mem_of_getElem? (library_eq_ok_iff.mp hlib))).adds hadds
  | pulse _ hnew =>
    refine { h with pulses := nodup_keys_concat h.pulses ?_ }
    intro e' he' heq
    have hne := List.find?_eq_none.mp hnew e' he'
    simp_all
  | _ => exact { h with }

end Program.Distinct

theorem Reachable.distinct {board : Board} {p : Program} (h : Reachable board p) : p.Distinct :=
  h.induction (fun _ => Program.Distinct.empty) fun _ _ _ => Program.Distinct.edit

/-! ### Time does not go back -/

/-- No channel is earlier on the second timeline than on the first. -/
def Timeline.Advances (tl tl' : Timeline) : Prop :=
  ∀ ch ts, tl.get? ch = some ts → ∃ ts', tl'.get? ch = some ts' ∧ ts ≤ ts'

namespace Timeline.Advances

variable {tl tl' tl'' : Timeline}

theorem refl (tl : Timeline) : tl.Advances tl := fun _ ts h => ⟨ts, h, Nat.le_refl ts⟩

theorem trans (h₁ : tl.Advances tl') (h₂ : tl'.Advances tl'') : tl.Advances tl'' := by
  intro ch ts hts
  obtain ⟨ts', hts', hle⟩ := h₁ ch ts hts
  obtain ⟨ts'', hts'', hle'⟩ := h₂ ch ts' hts'
  exact ⟨ts'', hts'', Nat.le_trans hle hle'⟩

/-- A call of the scheduler does not put a channel back. -/
theorem schedule {ch : Channel} {time : Time} {duration t : ℕ} (h : tl.schedule ch time duration = .ok (t, tl')) :
    tl.Advances tl' := by
  have hreserve : tl.reserve ⟨ch, time, duration⟩ = tl' := by simp only [reserve, h]
  intro ch' ts hts
  refine ⟨_, by rw [← hreserve, get?_reserve, hts]; rfl, ?_⟩
  dsimp only
  split
  · exact Output.le_move _ ts
  · exact Nat.le_refl ts

/-- Channels are aligned to the latest of them. -/
theorem align {chs : List Channel} (h : tl.align chs = .ok tl') : tl.Advances tl' := by
  obtain ⟨top, htop, hget⟩ := get?_align h
  intro ch ts hts
  refine ⟨_, by rw [hget, hts]; rfl, ?_⟩
  split
  · rename_i hch
    exact htop ch hch ts hts
  · exact Nat.le_refl ts

end Timeline.Advances

end PulseAsm
