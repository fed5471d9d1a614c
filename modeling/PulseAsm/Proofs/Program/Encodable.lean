import PulseAsm.Proofs.Program.Addresses
import PulseAsm.Proofs.Program.Growth
import PulseAsm.Proofs.Program.Load

/-!
# Programs that assemble

The caller can put any instruction into a program, and load any register; all other
steps emit instructions of a few forms (`Program.Emits`). Their operands come from the
board, from registers that were handed out, from labels of open loops, from the wave
table, and from times. The invariant `Program.Coherent` says where these are; it holds
of every program that can be built.

So such a program assembles if the board keeps to what the fields can hold
(`Board.Addressable`), and times, waves and addresses stay in bounds. The check of a
board does not make sure of the first: port numbers are not looked at, there may be
sixteen generators, and bit 31 of a data port passes.
-/

namespace PulseAsm

open Text

/-! ### Programs that hang together -/

/-- Registers are on the pages of the board, an open loop has a register and a label,
and the waves of a pulse are in the table. -/
structure Program.Coherent (p : Program) : Prop where
  registers : p.registers.Bounded p.board.pages
  loop : ∀ reg ∈ p.loops, reg ∈ p.registers.registers ∧ ∃ a, p.labels.lookup (upperCase reg.name) = some a
  pulse : ∀ e ∈ p.pulses, ∀ k ∈ e.waves, k < p.waves.entries.length

namespace Program.Coherent

variable {p q : Program}

theorem empty {board : Board} (h : Program.ofBoard board = .ok p) : p.Coherent := by
  obtain ⟨-, registers, hall, rfl⟩ := Program.ofBoard_eq_ok_iff.mp h
  have hbounded : registers.Bounded board.pages :=
    RegisterFile.allocateAll_preserves (P := fun f => f.Bounded board.pages) hall (RegisterFile.bounded_empty _ _)
      fun _ _ _ _ halloc hf => hf.allocate halloc
  exact ⟨hbounded, by simp, by simp⟩

theorem edit {c : Change} (he : Edit c p q) (h : p.Coherent) : q.Coherent := by
  have hext := Program.Extends.of_edit he
  have hloop : ∀ reg ∈ p.loops, reg ∈ q.registers.registers ∧ ∃ a, q.labels.lookup (upperCase reg.name) = some a := by
    intro reg hreg
    obtain ⟨hmem, a, ha⟩ := h.loop reg hreg
    exact ⟨hext.registers.subset hmem, a, hext.label _ a ha⟩
  have hpulse : ∀ e ∈ p.pulses, ∀ k ∈ e.waves, k < q.waves.entries.length := fun e he k hk =>
    Nat.lt_of_lt_of_le (h.pulse e he k hk) hext.waves.length_le
  cases he with
  | allocate halloc => exact ⟨h.registers.allocate (RegisterFile.allocates_of_allocate halloc), hloop, hpulse⟩
  | enter hreg hlabel => exact ⟨h.registers, List.forall_mem_cons.mpr ⟨⟨hreg, _, hlabel⟩, hloop⟩, hpulse⟩
  | leave hloops => exact ⟨h.registers, fun reg hreg => hloop reg (hloops ▸ List.mem_cons_of_mem _ hreg), hpulse⟩
  | pulse hwaves =>
    refine ⟨h.registers, hloop, fun e he => ?_⟩
    rcases List.mem_append.mp he with he | he
    · exact hpulse e he
    · rw [List.mem_singleton.mp he]
      exact hwaves
  | _ => exact ⟨h.registers, hloop, hpulse⟩

end Program.Coherent

/-! ### What steps emit -/

/-- The step is a macro: it is not a register load or an instruction of the caller's own
choice. -/
def Step.IsMacro : Step → Prop
  | .writeImm .. | .instr .. => False
  | _ => True

open Build in
/-- The instructions that macros emit at address `n` of a program. -/
inductive Program.Emits (p : Program) (n : ℕ) : Instr → Prop where
  | load {page addr : ℕ} {s : LoadStep} (hpage : page < p.board.pages) (haddr : addr < 32) (hs : s.Proper) :
      Emits p n (loadInstr page addr s)
  | countDown {reg : Register} (hpage : reg.page < p.board.pages) (haddr : reg.addr < 32) :
      Emits p n (countDownInstr reg)
  | branch {reg : Register} {a : ℕ} (hlabel : p.labels.lookup (upperCase reg.name) = some a) (ha : a ≤ n) :
      Emits p n (branchInstr reg)
  | play {ch index : ℕ} (hch : ch < p.board.gens.length) (hindex : index < p.waves.entries.length) :
      Emits p n (playInstr ch index)
  | port {port mask : ℕ} (hport : Drives p.board.ports port mask) : Emits p n (portInstr port mask)
  | marker {port level t : ℕ} (hport : .pulsed port ∈ p.board.ports) (hlevel : level < 2) :
      Emits p n (markerInstr port level t)
  | sync (t : ℕ) : Emits p n ⟨"synci", [.value t], false⟩
  | wait (t : ℕ) : Emits p n ⟨"waiti", [.value 0, .value t], false⟩
  | finish : Emits p n ⟨"end", [], false⟩

theorem Program.Emits.mono {p q : Program} {n n' : ℕ} {i : Instr} (h : p.Emits n i) (hpq : p.Extends q) (hn : n ≤ n') :
    q.Emits n' i := by
  cases h with
  | load hpage haddr hs => exact .load (hpq.board ▸ hpage) haddr hs
  | countDown hpage haddr => exact .countDown (hpq.board ▸ hpage) haddr
  | branch hlabel ha => exact .branch (hpq.label _ _ hlabel) (Nat.le_trans ha hn)
  | play hch hindex => exact .play (hpq.board ▸ hch) (Nat.lt_of_lt_of_le hindex hpq.waves.length_le)
  | port hport => exact .port (hpq.board ▸ hport)
  | marker hport hlevel => exact .marker (hpq.board ▸ hport) hlevel
  | sync t => exact .sync t
  | wait t => exact .wait t
  | finish => exact .finish

/-- A label is bound no further than to the next address. -/
theorem Program.Laid.label_le {p : Program} (h : p.Laid) {name : String} {a : ℕ} (ha : p.labels.lookup name = some a) :
    a ≤ p.nextAddr := by
  obtain ⟨l₁, l₂, hsplit, -⟩ := List.lookup_eq_some_iff.mp ha
  rcases h.label name a (by simp [hsplit]) with ⟨l, hl, rfl⟩ | rfl
  · obtain ⟨k, hk⟩ := List.mem_iff_getElem?.mp hl
    rw [h.addr k l hk, h.next]
    exact slotSum_take_le _ _
  · exact Nat.le_refl _

/-- Macros emit nothing else. -/
theorem Step.Makes.emits {s : Step} {p : Program} {i : Instr} (h : s.Makes p (.append i)) (hallowed : s.IsMacro)
    (hp : p.Coherent) (hlaid : p.Laid) (hboard : p.board.validate = .ok ()) : p.Emits p.nextAddr i := by
  obtain ⟨hpages, -, hgens, -⟩ := Board.validate_eq_ok_iff.mp hboard
  have hgrants : ∀ reg, p.Grants reg → reg.page < p.board.pages ∧ reg.addr < 32 := by
    rintro reg ⟨r, registers, halloc⟩
    exact (RegisterFile.allocates_of_allocate halloc).inRange hp.registers
  cases h with
  | @playLoad ch _ _ hch s hs =>
    have hpage : ch / 2 < p.board.pages := (hgens ch _ (List.getElem?_eq_getElem hch)).1
    refine .load ?_ ?_ hs
    · simp only [PulseRegs.ofGen]
      omega
    · simp only [PulseRegs.ofGen, PulseRegs.time]
      split <;> omega
  | playWave hch e he index hindex => exact .play hch (hp.pulse e he index hindex)
  | triggerLoad s hs => exact .load (by simp only [triggerPage]; omega) (by decide) hs
  | triggerPort port mask hport => exact .port hport
  | triggerMarker port hport level hlevel time => exact .marker hport hlevel
  | syncAll time => exact .sync time
  | wait => exact .wait _
  | waitAll time => exact .wait time
  | openLoad reg hreg s hs => exact .load (hgrants reg hreg).1 (hgrants reg hreg).2 hs
  | regLoad reg hreg s hs => exact .load (hgrants reg hreg).1 (hgrants reg hreg).2 hs
  | closeCount reg hreg =>
    obtain ⟨hpage, haddr⟩ := hp.registers.register reg (hp.loop reg hreg).1
    exact .countDown hpage haddr
  | closeBranch reg hreg =>
    obtain ⟨-, a, ha⟩ := hp.loop reg hreg
    exact .branch ha (hlaid.label_le ha)
  | writeImm | instr => exact hallowed.elim
  | finish => exact .finish

/-- Every line holds what a macro emits at its address. -/
def Program.Emitted (p : Program) : Prop := ∀ l ∈ p.lines, p.Emits l.addr l.instr

theorem Edits.emitted {A : Change → Prop} {p q : Program} (h : Edits A p q)
    (hA : ∀ i, A (.append i) → p.Emits p.nextAddr i) (hp : p.Emitted) : q.Emitted := by
  -- a new line may stand further on than where the edits started, hence `Emits.mono`
  have hboth : p.Extends q ∧ q.Emitted := by
    refine h.preserves (P := fun q => p.Extends q ∧ q.Emitted) ⟨.refl p, hp⟩ ?_
    rintro c q r hc he ⟨hpq, hq⟩
    have hqr := Program.Extends.of_edit he
    refine ⟨hpq.trans hqr, ?_⟩
    have hold : ∀ l ∈ q.lines, r.Emits l.addr l.instr := fun l hl => (hq l hl).mono hqr (Nat.le_refl _)
    cases he with
    | append comment hd hlen =>
      intro l hl
      rcases List.mem_append.mp hl with hl | hl
      · exact hold l hl
      · rw [List.mem_singleton.mp hl]
        exact (hA _ hc).mono (hpq.trans hqr) hpq.nextAddr
    | _ => exact hold
  exact hboth.2

/-- Every program that can be built hangs together. -/
theorem Reachable.coherent {board : Board} {p : Program} (h : Reachable board p) : p.Coherent :=
  h.induction (fun _ => Program.Coherent.empty) fun _ _ _ => Program.Coherent.edit

theorem Reachable.board_eq {board : Board} {p : Program} (h : Reachable board p) :
    p.board = board ∧ board.validate = .ok () := by
  refine h.induction (P := fun p => p.board = board ∧ board.validate = .ok ()) (fun p hp => ?_) fun c p q he hp => ?_
  · obtain ⟨hvalid, registers, -, rfl⟩ := Program.ofBoard_eq_ok_iff.mp hp
    exact ⟨rfl, hvalid⟩
  · exact ⟨(Program.Extends.of_edit he).board.trans hp.1, hp.2⟩

/-- Macros, whether they succeed or fail, keep to what macros emit. -/
theorem Reachable.emitted_after {board : Board} {p : Program} (h : Reachable board p) (hp : p.Emitted)
    {steps : List Step} (hsteps : ∀ s ∈ steps, s.IsMacro) : (p.after steps).Emitted := by
  induction steps generalizing p with
  | nil => exact hp
  | cons s steps ih =>
    rw [List.forall_mem_cons] at hsteps
    obtain ⟨hboard, hvalid⟩ := h.board_eq
    refine ih (.step s h) ((s.edits p).emitted (fun i hi => ?_) hp) hsteps.2
    exact hi.emits hsteps.1 h.coherent h.laid (hboard ▸ hvalid)

/-! ### Boards that instructions can address -/

/-- The port has a number that fits the field of a channel, and its bit a mask that fits
an immediate. -/
def TriggerPort.Fits : TriggerPort → Prop
  | .dport port bit => port < 8 ∧ bit < 31
  | .pulsed port => port < 8

instance : ∀ port : TriggerPort, Decidable port.Fits
  | .dport port bit => inferInstanceAs (Decidable (port < 8 ∧ bit < 31))
  | .pulsed port => inferInstanceAs (Decidable (port < 8))

/-- The generators and the ports fit the fields of instructions. -/
structure Board.Addressable (b : Board) : Prop where
  gens : b.gens.length ≤ 8
  ports : ∀ port ∈ b.ports, port.Fits

/-- The time operand of an instruction that has one. -/
def Instr.time? (i : Instr) : Option ℤ :=
  if i.mnemonic ∈ ["synci", "waiti", "trigi"] then
    match i.operands.getLast? with
    | some (.value t) => some t
    | _ => none
  else none

namespace Build

open PulseAsm.Field

theorem exists_encode_countDownInstr {c : Register} (hpage : c.page < 8) (haddr : c.addr < 32) :
    ∃ w, encode (countDownInstr c) = .ok w := by
  obtain ⟨d, hd, hfields, hflag⟩ : ∃ d, Descriptor.ofMnemonic? "mathi" = some d ∧
      d.fields = [page 0, reg 1 41, reg 2 36, op 3 .arith, imm 4] ∧ d.flagBit.isSome := ⟨_, rfl, rfl, rfl⟩
  refine exists_encode_iff.mpr ⟨d, hd, by rw [Descriptor.arity, hfields]; rfl, ?_, fun _ => hflag⟩
  simp only [hfields, List.forall_mem_cons]
  have hreg : ∀ k offset, (reg k offset).Accepts (.value c.addr) :=
    fun k offset => accepts_reg_iff.mpr ⟨c.addr, rfl, haddr⟩
  exact ⟨accepts_page_iff.mpr ⟨c.page, rfl, hpage⟩, hreg 1 41, hreg 2 36,
    (accepts_op_iff rfl).mpr ⟨.sub, rfl, rfl⟩, accepts_imm_natCast (n := 1) (by decide), by simp⟩

/-- A branch encodes if its target is an address of the memory. -/
theorem exists_encode_jnz {a : ℕ} (ha : a < 2 ^ 16) : ∃ w, encode ⟨"jnz", [.value a], false⟩ = .ok w := by
  have hfields : (Descriptor.ofMnemonic? "jnz").map (·.fields) = some [addr 0] := rfl
  refine exists_encode_of_accepts hfields rfl ?_ rfl
  simp only [List.forall_mem_cons]
  exact ⟨accepts_addr_iff.mpr ⟨a, rfl, ha⟩, by simp⟩

/-- The two instructions that act on a channel at a time that is in a register. -/
theorem exists_encode_output {mnemonic : String} (hm : mnemonic = "wseti" ∨ mnemonic = "dporti")
    {ch pg rg v : ℕ} (hch : ch < 8) (hpage : pg < 8) (hreg : rg < 32) (hv : v < 2 ^ 31) :
    ∃ w, encode ⟨mnemonic, [.value ch, .value pg, .value rg, .value v], false⟩ = .ok w := by
  have hfields : (Descriptor.ofMnemonic? mnemonic).map (·.fields) = some [channel 0, page 1, reg 2 36, imm 3] := by
    rcases hm with rfl | rfl <;> rfl
  refine exists_encode_of_accepts hfields rfl ?_ rfl
  simp only [List.forall_mem_cons]
  exact ⟨accepts_channel_iff.mpr ⟨ch, rfl, hch⟩, accepts_page_iff.mpr ⟨pg, rfl, hpage⟩,
    accepts_reg_iff.mpr ⟨rg, rfl, hreg⟩, accepts_imm_natCast hv, by simp⟩

theorem exists_encode_markerInstr {port level t : ℕ} (hport : port < 8) (hlevel : level < 2) (ht : t < 2 ^ 31) :
    ∃ w, encode (markerInstr port level t) = .ok w := by
  have hfields : (Descriptor.ofMnemonic? "trigi").map (·.fields) = some [channel 0, flag 1 46, imm 2] := rfl
  refine exists_encode_of_accepts hfields rfl ?_ rfl
  simp only [List.forall_mem_cons]
  exact ⟨accepts_channel_iff.mpr ⟨port, rfl, hport⟩, accepts_flag_iff.mpr ⟨level, rfl, hlevel⟩,
    accepts_imm_natCast ht, by simp⟩

theorem exists_encode_synci {t : ℕ} (ht : t < 2 ^ 31) : ∃ w, encode ⟨"synci", [.value t], false⟩ = .ok w := by
  have hfields : (Descriptor.ofMnemonic? "synci").map (·.fields) = some [imm 0] := rfl
  refine exists_encode_of_accepts hfields rfl ?_ rfl
  simp only [List.forall_mem_cons]
  exact ⟨accepts_imm_natCast ht, by simp⟩

theorem exists_encode_waiti {t : ℕ} (ht : t < 2 ^ 31) : ∃ w, encode ⟨"waiti", [.value 0, .value t], false⟩ = .ok w := by
  have hfields : (Descriptor.ofMnemonic? "waiti").map (·.fields) = some [channel 0, imm 1] := rfl
  refine exists_encode_of_accepts hfields rfl ?_ rfl
  simp only [List.forall_mem_cons]
  exact ⟨accepts_channel_iff.mpr ⟨0, rfl, by decide⟩, accepts_imm_natCast ht, by simp⟩

end Build

open Build in
/-- What macros emit resolves and encodes on a board that instructions can address. -/
theorem Program.Emits.exists_encode {p : Program} {n : ℕ} {i : Instr} (h : p.Emits n i) (hpages : p.board.pages ≤ 8)
    (hboard : p.board.Addressable) (hwaves : p.waves.entries.length ≤ 2 ^ 31)
    (htime : ∀ t ∈ i.time?, t < 2 ^ 31) (hn : n < 2 ^ 16) (a : ℕ) :
    ∃ j w, i.resolve p.labels a = .ok j ∧ encode j = .ok w := by
  have htimeNat : ∀ t : ℕ, i.time? = some (t : ℤ) → t < 2 ^ 31 := by
    intro t ht
    have hlt := htime t ht
    omega
  cases h with
  | @load page addr s hpage haddr hs =>
    obtain ⟨v, steps, hsteps, hs⟩ := hs
    obtain ⟨hlow, hhigh⟩ := imm_of_mem_loadSteps hsteps s hs
    obtain ⟨w, hw⟩ := exists_encode_loadInstr (Nat.lt_of_lt_of_le hpage hpages) haddr hlow hhigh
    exact ⟨_, w, by cases s <;> rfl, hw⟩
  | countDown hpage haddr =>
    obtain ⟨w, hw⟩ := exists_encode_countDownInstr (Nat.lt_of_lt_of_le hpage hpages) haddr
    exact ⟨_, w, rfl, hw⟩
  | @branch reg b hlabel hb =>
    -- the target is no further than the branch, and that is in the memory
    obtain ⟨w, hw⟩ := exists_encode_jnz (Nat.lt_of_le_of_lt hb hn)
    refine ⟨_, w, ?_, hw⟩
    simp [branchInstr, Instr.resolve, Operand.resolve, hlabel, pure, Except.pure, bind, Except.bind]
  | @play ch index hch hindex =>
    have hch : ch < 8 := Nat.lt_of_lt_of_le hch hboard.gens
    have hpage : (PulseRegs.ofGen ch).page < 8 := by
      simp only [PulseRegs.ofGen]
      omega
    have htimeReg : (PulseRegs.ofGen ch).time < 32 := by
      simp only [PulseRegs.ofGen, PulseRegs.time]
      split <;> omega
    obtain ⟨w, hw⟩ := exists_encode_output (Or.inl rfl) hch hpage htimeReg (Nat.lt_of_lt_of_le hindex hwaves)
    exact ⟨_, w, rfl, hw⟩
  | @port port mask hport =>
    obtain ⟨bit, hbit⟩ := hport.among
    have hmask := hport.lt_two_pow fun bit hbit => (hboard.ports _ hbit).2
    obtain ⟨w, hw⟩ := exists_encode_output (Or.inr rfl) (hboard.ports _ hbit).1 (by decide : triggerPage < 8)
      (by decide : triggerTimeReg < 32) hmask
    exact ⟨_, w, rfl, hw⟩
  | @marker port level t hport hlevel =>
    obtain ⟨w, hw⟩ := exists_encode_markerInstr (hboard.ports _ hport) hlevel (htimeNat t rfl)
    exact ⟨_, w, rfl, hw⟩
  | sync t =>
    obtain ⟨w, hw⟩ := exists_encode_synci (htimeNat t rfl)
    exact ⟨_, w, rfl, hw⟩
  | wait t =>
    obtain ⟨w, hw⟩ := exists_encode_waiti (htimeNat t rfl)
    exact ⟨_, w, rfl, hw⟩
  | finish => exact ⟨_, _, rfl, rfl⟩

/-- **A program of macros assembles**: on a board that passes its check and that
instructions can address, any sequence of steps without register loads and
instructions of the caller's own choice, whether they succeed or fail, leads to a
program that assembles, as long as its times are below `2^31`, its wave table has no
more than `2^31` rows and it has no more than `2^16` words. -/
theorem exists_assemble_of_macros {board : Board} {p₀ : Program} (hboard : Program.ofBoard board = .ok p₀)
    (haddressable : board.Addressable) {steps : List Step} (hsteps : ∀ s ∈ steps, s.IsMacro)
    (htimes : ∀ l ∈ (p₀.after steps).lines, ∀ t ∈ l.instr.time?, t < 2 ^ 31)
    (hwaves : (p₀.after steps).waves.entries.length ≤ 2 ^ 31) (hnext : (p₀.after steps).nextAddr ≤ 2 ^ 16) :
    ∃ words, (p₀.after steps).assemble = .ok words := by
  have hreach := (Reachable.start hboard).after steps
  obtain ⟨heq, hvalid⟩ := hreach.board_eq
  obtain ⟨hpages, -⟩ := Board.validate_eq_ok_iff.mp hvalid
  have hstart : p₀.Emitted := by
    obtain ⟨_, -, h⟩ := bind_eq_ok_iff.mp hboard
    obtain ⟨registers, -, h⟩ := bind_eq_ok_iff.mp h
    cases h
    exact List.forall_mem_nil _
  have hemitted := (Reachable.start hboard).emitted_after hstart hsteps
  refine exists_assemble_iff.mpr fun l hl => ?_
  have hlt := hreach.laid.addr_lt hl
  exact (hemitted l hl).exists_encode (heq ▸ hpages.2) (heq ▸ haddressable) hwaves (htimes l hl) (by omega) l.addr

/-- A loop around triggers at the limits of the fields, a wait for the last time, and a loop
that is closed twice. -/
theorem exists_assemble_of_macros_limits :
    ∃ p₀ words, Program.ofBoard { bareBoard with pins := [.dport 7 30, .pulsed 7] } = .ok p₀ ∧
      (p₀.after [.openLoop 3 none, .trigger [] [0, 1] 0 10, .closeLoop, .syncAll 5, .closeLoop, .wait 0x7FFFFFFF,
        .finish]).assemble = .ok words ∧ words.length = 13 := by
  have hboard : Program.ofBoard { bareBoard with pins := [.dport 7 30, .pulsed 7] } =
      .ok { bareProgram with board := { bareBoard with pins := [.dport 7 30, .pulsed 7] } } := by rfl
  have hsteps : ∀ s ∈ [Step.openLoop 3 none, .trigger [] [0, 1] 0 10, .closeLoop, .syncAll 5, .closeLoop,
      .wait 0x7FFFFFFF, .finish], s.IsMacro := by simp [Step.IsMacro]
  obtain ⟨words, hwords⟩ := exists_assemble_of_macros hboard ⟨by decide, by decide⟩ hsteps (by decide) (by decide)
    (by decide)
  exact ⟨_, words, hboard, hwords, (length_assemble hwords).trans (by decide)⟩

/-- **The check of a board is not enough**: it lets a pin on pulsed port 8 pass. Triggering
the pin succeeds, but the program does not assemble. -/
theorem exists_macros_not_assembling :
    ∃ p₀ p, Board.validate { bareBoard with pins := [.pulsed 8] } = .ok () ∧
      Program.ofBoard { bareBoard with pins := [.pulsed 8] } = .ok p₀ ∧
      (Script.apply [.trigger [] [0] 0 10, .finish]).apply p₀ = (.ok (), p) ∧
      (∀ l ∈ p.lines, ∀ t ∈ l.instr.time?, t < 2 ^ 31) ∧ p.nextAddr ≤ 2 ^ 16 ∧
      p.assemble = .error (.outOfRange "trigi.op0" 8 "[0, 7]") :=
  ⟨_, _, rfl, rfl, rfl, by decide, by decide, rfl⟩

end PulseAsm
