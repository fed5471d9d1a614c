import PulseAsm.Board.Basic
import PulseAsm.Proofs.Outcome

/-!
# Boards that pass their check

What the check of a board makes sure of: the number of pages and of registers, a
page for every generator, and bits of data ports below 32. It does not look at port
numbers.
-/

namespace PulseAsm

/-- The ports that the pins and the readouts of a board are triggered by. -/
def Board.ports (b : Board) : List TriggerPort := b.pins ++ b.readouts.map (·.trigger)

theorem Board.gen_eq_ok_iff {b : Board} {ch : ℕ} {g : Generator} : b.gen ch = .ok g ↔ b.gens[ch]? = some g := by
  unfold gen
  cases b.gens[ch]? <;> simp

theorem Generator.validate_eq_ok_iff {pages ch : ℕ} {g : Generator} :
    g.validate pages ch = .ok () ↔
      ch / 2 < pages ∧ (1 ≤ g.ddsBits ∧ g.ddsBits ≤ 32) ∧ 1 ≤ g.samplesPerClock := by
  unfold validate
  constructor
  · intro h
    split at h
    · cases h
    · split at h
      · cases h
      · split at h
        · cases h
        · omega
  · intro h
    rw [if_neg (by omega), if_neg (by omega), if_neg (by omega)]

theorem TriggerPort.validate_eq_ok_iff {what : String} {port : TriggerPort} :
    port.validate what = .ok () ↔ ∀ p bit, port = .dport p bit → bit < 32 := by
  cases port with
  | pulsed p => simp [validate]
  | dport p bit => simp [validate]

/-- The check passes exactly if there are one to eight pages of 32 registers, every
generator has a page and sensible figures, and no data port has a bit above 31. -/
theorem Board.validate_eq_ok_iff {b : Board} :
    b.validate = .ok () ↔
      (1 ≤ b.pages ∧ b.pages ≤ 8) ∧ b.regsPerPage = 32 ∧
      (∀ (ch : ℕ) (g : Generator), b.gens[ch]? = some g →
        ch / 2 < b.pages ∧ (1 ≤ g.ddsBits ∧ g.ddsBits ≤ 32) ∧ 1 ≤ g.samplesPerClock) ∧
      ∀ port bit, .dport port bit ∈ b.ports → bit < 32 := by
  have hgens : (b.gens.zipIdx.forM fun e => e.1.validate b.pages e.2) = .ok () ↔
      ∀ (ch : ℕ) (g : Generator), b.gens[ch]? = some g →
        ch / 2 < b.pages ∧ (1 ≤ g.ddsBits ∧ g.ddsBits ≤ 32) ∧ 1 ≤ g.samplesPerClock := by
    simp only [forM_eq_ok_iff, Prod.forall, List.mem_zipIdx_iff_getElem?, Generator.validate_eq_ok_iff]
    exact forall_comm
  have hports : (b.pins.zipIdx.forM fun e => e.1.validate s!"output pin {e.2}") = .ok () ∧
      (b.readouts.zipIdx.forM fun e => e.1.trigger.validate s!"readout {e.2} trigger") = .ok () ↔
        ∀ port bit, .dport port bit ∈ b.ports → bit < 32 := by
    simp only [forM_eq_ok_iff, Prod.forall, List.mem_zipIdx_iff_getElem?, TriggerPort.validate_eq_ok_iff]
    constructor
    · rintro ⟨hpins, hros⟩ port bit hmem
      rcases List.mem_append.mp hmem with hmem | hmem
      · obtain ⟨k, hk⟩ := List.mem_iff_getElem?.mp hmem
        exact hpins _ k hk port bit rfl
      · obtain ⟨r, hr, heq⟩ := List.mem_map.mp hmem
        obtain ⟨k, hk⟩ := List.mem_iff_getElem?.mp hr
        exact hros r k hk port bit heq
    · intro h
      refine ⟨fun port k hk p bit heq => h p bit ?_, fun r k hk p bit heq => h p bit ?_⟩
      · exact List.mem_append_left _ (heq ▸ List.mem_of_getElem? hk)
      · exact List.mem_append_right _ (heq ▸ List.mem_map_of_mem (List.mem_of_getElem? hk))
  rw [← hgens, ← hports]
  unfold validate
  by_cases hpages : b.pages < 1 ∨ 8 < b.pages
  · rw [if_pos hpages]
    constructor
    · intro h
      cases h
    · rintro ⟨hrange, -⟩
      omega
  · rw [if_neg hpages]
    by_cases hregs : b.regsPerPage ≠ 32
    · rw [if_pos hregs]
      constructor
      · intro h
        cases h
      · rintro ⟨-, hregs', -⟩
        exact absurd hregs' hregs
    · rw [if_neg hregs]
      have hrange : (1 ≤ b.pages ∧ b.pages ≤ 8) ∧ b.regsPerPage = 32 := by omega
      rw [and_iff_right hrange.1, and_iff_right hrange.2]
      exact seq_eq_ok_iff.trans (and_congr_right fun _ => seq_eq_ok_iff)

end PulseAsm
