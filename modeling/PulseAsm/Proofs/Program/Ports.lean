import PulseAsm.Program.Builder
import PulseAsm.Proofs.Board
import Mathlib.Data.List.Induction
import Mathlib.Data.List.Nodup
import Mathlib.Data.Nat.Bitwise

/-!
# Trigger ports

What a trigger writes to the ports that it is given: the masks of the data ports
have the bits that were asked for and no others (`Drives`, `exists_portMasks_iff`), one
mask for each port, and no other port is pulsed.
-/

namespace PulseAsm

/-- The mask of a data port among the ports, which has no bits but theirs. -/
structure Drives (ports : List TriggerPort) (port mask : ℕ) : Prop where
  among : ∃ bit, .dport port bit ∈ ports
  bits : ∀ bit, mask.testBit bit → .dport port bit ∈ ports

namespace Drives

variable {ports : List TriggerPort} {port : ℕ}

theorem mono {ports' : List TriggerPort} (hsub : ports ⊆ ports') {mask : ℕ} (h : Drives ports port mask) :
    Drives ports' port mask := by
  obtain ⟨⟨bit, hbit⟩, hbits⟩ := h
  exact ⟨⟨bit, hsub hbit⟩, fun bit hmask => hsub (hbits bit hmask)⟩

theorem zero {mask : ℕ} (h : Drives ports port mask) : Drives ports port 0 := ⟨h.among, by simp⟩

theorem single {bit : ℕ} (h : .dport port bit ∈ ports) : Drives ports port (1 <<< bit) := by
  refine ⟨⟨bit, h⟩, fun bit' hmask => ?_⟩
  rw [Nat.one_shiftLeft, Nat.testBit_two_pow, decide_eq_true_eq] at hmask
  rwa [← hmask]

theorem or {mask mask' : ℕ} (h : Drives ports port mask) (h' : Drives ports port mask') :
    Drives ports port (mask ||| mask') := by
  refine ⟨h.among, fun bit hmask => ?_⟩
  rw [Nat.testBit_or, Bool.or_eq_true] at hmask
  exact hmask.elim (h.bits bit) (h'.bits bit)

/-- A mask is below a power of two if its bits are. -/
theorem lt_two_pow {mask n : ℕ} (h : Drives ports port mask) (hn : ∀ bit, .dport port bit ∈ ports → bit < n) :
    mask < 2 ^ n := by
  refine Nat.lt_pow_two_of_testBit mask fun bit hbit => ?_
  by_contra hmask
  exact absurd (hn bit (h.bits bit (by simpa using hmask))) (by omega)

end Drives

namespace Build

variable {ports : List TriggerPort}

theorem drives_setMask {port bit : ℕ} (hport : .dport port bit ∈ ports) {masks : List (ℕ × ℕ)}
    (hmasks : ∀ e ∈ masks, Drives ports e.1 e.2) : ∀ e ∈ setMask port bit masks, Drives ports e.1 e.2 := by
  induction masks with
  | nil => simpa [setMask] using Drives.single hport
  | cons e masks ih =>
    obtain ⟨q, mask⟩ := e
    rw [List.forall_mem_cons] at hmasks
    unfold setMask
    split
    · exact List.forall_mem_cons.mpr ⟨.single hport, List.forall_mem_cons.mpr hmasks⟩
    · split
      · rename_i heq
        subst heq
        exact List.forall_mem_cons.mpr ⟨hmasks.1.or (.single hport), hmasks.2⟩
      · exact List.forall_mem_cons.mpr ⟨hmasks.1, ih hmasks.2⟩

/-- The masks of the data ports have the bits that were asked for. -/
theorem drives_portMasks (ports : List TriggerPort) : ∀ e ∈ portMasks ports, Drives ports e.1 e.2 := by
  refine List.foldlRecOn (motive := fun masks : List (ℕ × ℕ) => ∀ e ∈ masks, Drives ports e.1 e.2) ports _
    (List.forall_mem_nil _) ?_
  intro masks hmasks port hport
  cases port with
  | dport port bit => exact drives_setMask hport hmasks
  | pulsed port => exact hmasks

/-- A bit is set in the masks if it was, or if it is the one that is set. -/
theorem exists_setMask_iff {port bit q b : ℕ} {masks : List (ℕ × ℕ)} :
    (∃ e ∈ setMask port bit masks, e.1 = q ∧ e.2.testBit b) ↔
      (port = q ∧ bit = b) ∨ ∃ e ∈ masks, e.1 = q ∧ e.2.testBit b := by
  have hone : (1 <<< bit).testBit b ↔ bit = b := by
    rw [Nat.one_shiftLeft, Nat.testBit_two_pow, decide_eq_true_eq]
  induction masks with
  | nil => simp only [setMask, List.mem_singleton, exists_eq_left, hone, List.not_mem_nil, false_and, exists_false,
      or_false]
  | cons e masks ih =>
    obtain ⟨r, mask⟩ := e
    unfold setMask
    split
    · simp only [List.mem_cons, exists_eq_or_imp, hone]
    · split
      · rename_i heq
        subst heq
        simp only [List.mem_cons, exists_eq_or_imp, Nat.testBit_or, Bool.or_eq_true, hone, and_or_left, or_assoc,
          or_left_comm]
      · simp only [List.mem_cons, exists_eq_or_imp, ih, or_left_comm]

theorem lt_of_mem_setMask {lo port bit : ℕ} {masks : List (ℕ × ℕ)} (hport : lo < port)
    (hmasks : ∀ e ∈ masks, lo < e.1) : ∀ e ∈ setMask port bit masks, lo < e.1 := by
  induction masks with
  | nil => simpa [setMask] using hport
  | cons e masks ih =>
    obtain ⟨q, mask⟩ := e
    rw [List.forall_mem_cons] at hmasks
    unfold setMask
    split
    · exact List.forall_mem_cons.mpr ⟨hport, List.forall_mem_cons.mpr hmasks⟩
    · split
      · exact List.forall_mem_cons.mpr hmasks
      · exact List.forall_mem_cons.mpr ⟨hmasks.1, ih hmasks.2⟩

theorem pairwise_setMask {port bit : ℕ} {masks : List (ℕ × ℕ)} (h : masks.Pairwise fun e f => e.1 < f.1) :
    (setMask port bit masks).Pairwise fun e f => e.1 < f.1 := by
  induction masks with
  | nil => simp [setMask]
  | cons e masks ih =>
    obtain ⟨q, mask⟩ := e
    have hcons := List.pairwise_cons.mp h
    unfold setMask
    split
    · rename_i hlt
      exact List.pairwise_cons.mpr ⟨List.forall_mem_cons.mpr ⟨hlt, fun f hf => hlt.trans (hcons.1 f hf)⟩, h⟩
    · split
      · exact List.pairwise_cons.mpr hcons
      · exact List.pairwise_cons.mpr ⟨lt_of_mem_setMask (by omega) hcons.1, ih hcons.2⟩

/-- The bits of the masks are those of the data ports that were asked for. -/
theorem exists_portMasks_iff (ports : List TriggerPort) (q b : ℕ) :
    (∃ e ∈ portMasks ports, e.1 = q ∧ e.2.testBit b) ↔ .dport q b ∈ ports := by
  unfold portMasks
  induction ports using List.reverseRecOn with
  | nil => simp
  | append_singleton ports port ih =>
    rw [List.foldl_concat, List.mem_append, List.mem_singleton]
    cases port with
    | dport port bit =>
      rw [exists_setMask_iff, ih, TriggerPort.dport.injEq, eq_comm (a := q), eq_comm (a := b)]
      exact or_comm
    | pulsed port => simpa using ih

theorem pairwise_portMasks (ports : List TriggerPort) : (portMasks ports).Pairwise fun e f => e.1 < f.1 := by
  refine List.foldlRecOn (motive := fun masks : List (ℕ × ℕ) => masks.Pairwise fun e f => e.1 < f.1) ports _
    List.Pairwise.nil ?_
  intro masks hmasks port _
  cases port with
  | dport port bit => exact pairwise_setMask hmasks
  | pulsed port => exact hmasks

/-- A data port has one mask. -/
theorem nodup_portMasks (ports : List TriggerPort) : ((portMasks ports).map (·.1)).Nodup :=
  List.pairwise_map.mpr ((pairwise_portMasks ports).imp Nat.ne_of_lt)

/-- A mask has a bit. -/
theorem ne_zero_of_mem_portMasks {e : ℕ × ℕ} (he : e ∈ portMasks ports) : e.2 ≠ 0 := by
  obtain ⟨bit, hbit⟩ := (drives_portMasks ports e he).among
  obtain ⟨e', he', hport, hmask⟩ := (exists_portMasks_iff ports e.1 bit).mpr hbit
  obtain rfl := List.inj_on_of_nodup_map (nodup_portMasks ports) he' he hport
  intro hzero
  simp [hzero] at hmask

/-- The pulsed ports are those that were asked for. -/
theorem mem_pulsedPorts_iff {port : ℕ} : port ∈ pulsedPorts ports ↔ .pulsed port ∈ ports := by
  rw [pulsedPorts, mem_increasing, List.mem_filterMap]
  constructor
  · rintro ⟨port', hport', h⟩
    cases port' with
    | dport => cases h
    | pulsed =>
      cases h
      exact hport'
  · exact fun hport => ⟨_, hport, rfl⟩

end Build

end PulseAsm
