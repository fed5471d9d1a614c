import PulseAsm.Proofs.Board
import PulseAsm.Proofs.Machine.Frame
import PulseAsm.Proofs.Program.Branches
import PulseAsm.Proofs.Program.Encodable

/-!
# Reserved registers and handed-out registers

Before anything is built, the registers of the generators and of the trigger unit are
taken. All of them lie at different places and have different names, so a board that
passes its check always has an empty program (`exists_ofBoard_iff`).

From then on none of them is handed out. What is played, triggered, synchronized or waited
for writes no other registers than these, so it leaves alone whatever was handed out, also
when the program runs.
-/

namespace PulseAsm

open Machine

/-! ### Requests that are all met -/

/-- The requests are for different places and different names. -/
def RegRequest.Apart (r r' : RegRequest) : Prop := (r.page, r.addr) ≠ (r'.page, r'.addr) ∧ r.name ≠ r'.name

/-- The request is for a place of the file that is free, under a name that is new. -/
def RegisterFile.Admits (f : RegisterFile) (r : RegRequest) : Prop :=
  ∃ a name, r.addr = some a ∧ r.name = some name ∧ f.Offers r a ∧ f.get? name = none

namespace RegisterFile

variable {f f' : RegisterFile} {r r' : RegRequest} {reg : Register}

theorem Admits.exists_allocate (h : f.Admits r) :
    ∃ reg f', f.allocate r = .ok (reg, f') ∧ r.addr = some reg.addr ∧ r.name = some reg.name := by
  obtain ⟨a, name, haddr, hname, hoffers, hnew⟩ := h
  have hchoose : chooseName r a = name := by rw [chooseName_eq, hname, Option.getD_some]
  obtain ⟨reg, f', halloc⟩ := exists_allocate_iff.mpr ⟨a, hoffers, hchoose.symm ▸ hnew⟩
  have hreg := allocates_of_allocate halloc
  have hwish := hreg.wish a haddr
  refine ⟨reg, f', halloc, hwish ▸ haddr, ?_⟩
  rw [hreg.name, hwish, hchoose, hname]

/-- Meeting a request leaves room for those that are apart from it. -/
theorem Admits.allocate (h : f.Admits r') (halloc : f.Allocates r reg f') (haddr : r.addr = some reg.addr)
    (hname : r.name = some reg.name) (hapart : r.Apart r') : f'.Admits r' := by
  obtain ⟨a, name, haddr', hname', hoffers, hnew⟩ := h
  refine ⟨a, name, haddr', hname', ?_, ?_⟩
  · refine ⟨halloc.pages ▸ hoffers.page_lt, halloc.perPage ▸ hoffers.addr_lt, ?_, hoffers.wish, by simp [haddr']⟩
    refine Bool.eq_false_iff.mpr ?_
    intro hused
    rcases halloc.only _ _ hused with hused | hplace
    · rw [hoffers.free] at hused
      cases hused
    · obtain ⟨hpage, hplace⟩ := Prod.mk.inj hplace
      exact hapart.1 (by rw [haddr, haddr', ← halloc.page, hpage, hplace])
  · rw [get?_eq_none_iff, halloc.registers]
    intro reg' hreg'
    rcases List.mem_append.mp hreg' with hreg' | hreg'
    · exact get?_eq_none_iff.mp hnew reg' hreg'
    · rw [List.mem_singleton.mp hreg']
      intro heq
      exact hapart.2 (by rw [hname, hname', heq])

/-- Requests that are apart from each other are met one after the other. -/
theorem exists_allocateAll {rs : List RegRequest} {f : RegisterFile} (hadmits : ∀ r ∈ rs, f.Admits r)
    (hapart : rs.Pairwise RegRequest.Apart) : ∃ f', Program.allocateAll f rs = .ok f' := by
  induction rs generalizing f with
  | nil => exact ⟨f, rfl⟩
  | cons r rs ih =>
    rw [List.forall_mem_cons] at hadmits
    rw [List.pairwise_cons] at hapart
    obtain ⟨reg, g, halloc, haddr, hname⟩ := hadmits.1.exists_allocate
    obtain ⟨f', hf'⟩ := ih (f := g) (fun r' hr' =>
      (hadmits.2 r' hr').allocate (allocates_of_allocate halloc) haddr hname (hapart.1 r' hr')) hapart.2
    exact ⟨f', bind_eq_ok_iff.mpr ⟨_, halloc, hf'⟩⟩

theorem admits_empty {pages perPage a : ℕ} {name : String} (hpage : r.page < pages) (ha : a < min perPage 32)
    (haddr : r.addr = some a) (hname : r.name = some name) : (empty pages perPage).Admits r := by
  refine ⟨a, name, haddr, hname, ?_, rfl⟩
  refine ⟨by simpa [empty] using hpage, ha, by simp [isUsed, empty, hpage], ?_, by simp [haddr]⟩
  intro b hb
  rw [haddr] at hb
  exact Option.some.inj hb

end RegisterFile

/-! ### The registers that a board reserves -/

namespace Program

theorem ne_of_mem_repr {n : ℕ} {c d : Char} (hd : d.isDigit = false) (hc : c ∈ n.repr.toList) : c ≠ d := by
  rw [Nat.toList_repr] at hc
  rintro rfl
  rw [Nat.isDigit_of_mem_toDigits (by decide) (by decide) hc] at hd
  cases hd

theorem eq_of_toList_repr {j k : ℕ} (h : j.repr.toList = k.repr.toList) : j = k := by
  rw [← Nat.ofDigitChars_ten_toDigits (n := j), ← Nat.toList_repr, h, Nat.toList_repr, Nat.ofDigitChars_ten_toDigits]

/-- The digits of a number end where an underscore stands. -/
theorem takeWhile_repr (n : ℕ) (l : List Char) : (n.repr.toList ++ '_' :: l).takeWhile (· ≠ '_') = n.repr.toList := by
  rw [List.takeWhile_append_of_pos fun c hc => decide_eq_true (ne_of_mem_repr (by decide) hc)]
  simp

/-- The name of a pulse register tells the generator and the use. -/
theorem pulseName_inj {ch k : ℕ} {x y : String} (h : s!"g{ch}_{x}" = s!"g{k}_{y}") : ch = k ∧ x = y := by
  have hlist := congrArg String.toList h
  simp only [String.toList_append, toString, List.append_assoc] at hlist
  have hrest : ch.repr.toList ++ '_' :: x.toList = k.repr.toList ++ '_' :: y.toList := List.append_cancel_left hlist
  have hdigits : ch.repr.toList = k.repr.toList := by rw [← takeWhile_repr ch x.toList, hrest, takeWhile_repr]
  rw [hdigits] at hrest
  exact ⟨eq_of_toList_repr hdigits, String.toList_inj.mp (List.cons.inj (List.append_cancel_left hrest)).2⟩

/-- A request for a register of a generator, by the name and the address of the register. -/
theorem mem_pulseRequests_iff {ch : ℕ} {r : RegRequest} :
    r ∈ pulseRequests ch ↔ ∃ e ∈ (PulseRegs.ofGen ch).named,
      { page := (PulseRegs.ofGen ch).page, addr := some e.2.1, name := some s!"g{ch}_{e.1}", kind := e.2.2,
        owner := some ch } = r := List.mem_map

/-- The registers of a generator are a run of six addresses. -/
theorem addr_of_mem_named {regs : PulseRegs} {e : String × ℕ × RegKind} (h : e ∈ regs.named) :
    regs.base ≤ e.2.1 ∧ e.2.1 < regs.base + 6 := by
  simp only [PulseRegs.named, PulseRegs.time, List.mem_cons, List.not_mem_nil, or_false] at h
  rcases h with rfl | rfl | rfl | rfl | rfl | rfl <;> simp

/-- Different generators of a board have different registers. -/
theorem apart_pulseRequests {board : Board} (h : board.validate = .ok ()) {ch ch' : ℕ} (hne : ch ≠ ch')
    (hch : ch < board.gens.length) (hch' : ch' < board.gens.length) {r r' : RegRequest} (hr : r ∈ pulseRequests ch)
    (hr' : r' ∈ pulseRequests ch') : r.Apart r' := by
  obtain ⟨⟨-, hpages⟩, -, hgens, -⟩ := Board.validate_eq_ok_iff.mp h
  have hpage := (hgens ch _ (List.getElem?_eq_getElem hch)).1
  have hpage' := (hgens ch' _ (List.getElem?_eq_getElem hch')).1
  obtain ⟨e, he, rfl⟩ := mem_pulseRequests_iff.mp hr
  obtain ⟨e', he', rfl⟩ := mem_pulseRequests_iff.mp hr'
  refine ⟨?_, ?_⟩
  · -- generators on one page differ in parity, and so have the lower run and the upper run
    intro hplace
    obtain ⟨hsame, haddr⟩ := Prod.mk.inj hplace
    have hrun := addr_of_mem_named he
    have hrun' := addr_of_mem_named he'
    rw [Option.some.inj haddr] at hrun
    simp only [PulseRegs.ofGen] at hsame hrun hrun'
    split at hrun <;> split at hrun' <;> omega
  · intro hname
    exact hne (pulseName_inj (Option.some.inj hname)).1

theorem pairwise_pulseRequests (ch : ℕ) : (pulseRequests ch).Pairwise RegRequest.Apart := by
  have hnamed : (PulseRegs.ofGen ch).named.Pairwise fun e e' => e.2.1 ≠ e'.2.1 ∧ e.1 ≠ e'.1 := by
    simp [PulseRegs.named, PulseRegs.time]
  refine List.pairwise_map.mpr (hnamed.imp ?_)
  rintro e e' ⟨haddr, hname⟩
  refine ⟨?_, ?_⟩
  · intro hplace
    exact haddr (Option.some.inj (Prod.mk.inj hplace).2)
  · intro heq
    exact hname (pulseName_inj (Option.some.inj heq)).2

/-- The registers of the trigger unit are above those of the generators. -/
theorem apart_triggerRequests {ch : ℕ} {r r' : RegRequest} (hr : r ∈ pulseRequests ch) (hr' : r' ∈ triggerRequests) :
    r.Apart r' := by
  obtain ⟨e, he, rfl⟩ := mem_pulseRequests_iff.mp hr
  have hrun := addr_of_mem_named he
  have hbase : (PulseRegs.ofGen ch).base ≤ 23 := by
    simp only [PulseRegs.ofGen]
    split <;> decide
  have htrigger : ∃ a name, r'.addr = some a ∧ 30 ≤ a ∧ r'.name = some name ∧ name.toList.head? = some 't' := by
    simp only [triggerRequests, List.mem_cons, List.not_mem_nil, or_false] at hr'
    rcases hr' with rfl | rfl
    · exact ⟨_, _, rfl, by decide, rfl, rfl⟩
    · exact ⟨_, _, rfl, by decide, rfl, rfl⟩
  obtain ⟨a, name, haddr, hle, hname, hfirst⟩ := htrigger
  refine ⟨?_, ?_⟩
  · intro hplace
    have heq := (Prod.mk.inj hplace).2.trans haddr
    cases heq
    omega
  · intro heq
    have heq := Option.some.inj (heq.trans hname)
    rw [← heq] at hfirst
    simp [String.toList_append, toString] at hfirst

/-- What a board reserves does not overlap. -/
theorem pairwise_reserved {board : Board} (h : board.validate = .ok ()) :
    (reserved board).Pairwise RegRequest.Apart := by
  refine List.pairwise_append.mpr ⟨List.pairwise_flatMap.mpr ⟨fun ch _ => pairwise_pulseRequests ch, ?_⟩, ?_, ?_⟩
  · refine List.nodup_range.imp_of_mem ?_
    intro ch ch' hch hch' hne r hr r' hr'
    exact apart_pulseRequests h hne (List.mem_range.mp hch) (List.mem_range.mp hch') hr hr'
  · simp [triggerRequests, RegRequest.Apart, triggerTimeReg, triggerOutReg]
  · intro r hr r' hr'
    obtain ⟨ch, -, hr⟩ := List.mem_flatMap.mp hr
    exact apart_triggerRequests hr hr'

/-- What a board reserves is there. -/
theorem admits_reserved {board : Board} (h : board.validate = .ok ()) :
    ∀ r ∈ reserved board, (RegisterFile.empty board.pages board.regsPerPage).Admits r := by
  obtain ⟨⟨hpos, hpages⟩, hregs, hgens, -⟩ := Board.validate_eq_ok_iff.mp h
  intro r hr
  rw [hregs]
  rcases List.mem_append.mp hr with hr | hr
  · obtain ⟨ch, hch, hr⟩ := List.mem_flatMap.mp hr
    have hlt := List.mem_range.mp hch
    have hpage := (hgens ch _ (List.getElem?_eq_getElem hlt)).1
    obtain ⟨e, he, rfl⟩ := mem_pulseRequests_iff.mp hr
    have hrun := addr_of_mem_named he
    refine RegisterFile.admits_empty (a := e.2.1) ?_ ?_ rfl rfl
    · simp only [PulseRegs.ofGen]
      omega
    · simp only [PulseRegs.ofGen] at hrun
      split at hrun <;> omega
  · simp only [triggerRequests, List.mem_cons, List.not_mem_nil, or_false] at hr
    rcases hr with rfl | rfl
    · exact RegisterFile.admits_empty (a := triggerTimeReg) hpos (by decide) rfl rfl
    · exact RegisterFile.admits_empty (a := triggerOutReg) hpos (by decide) rfl rfl

/-- A board has an empty program exactly if it passes its check. -/
theorem exists_ofBoard_iff {board : Board} : (∃ p, ofBoard board = .ok p) ↔ board.validate = .ok () := by
  constructor
  · rintro ⟨p, h⟩
    exact (ofBoard_eq_ok_iff.mp h).1
  · intro h
    obtain ⟨registers, hall⟩ := RegisterFile.exists_allocateAll (admits_reserved h) (pairwise_reserved h)
    exact ⟨_, ofBoard_eq_ok_iff.mpr ⟨h, registers, hall, rfl⟩⟩

end Program

/-! ### What outputs write -/

/-- The step is about outputs in time. -/
def Step.Timed : Step → Prop
  | .play .. | .trigger .. | .syncAll _ | .wait _ | .waitAll _ => True
  | _ => False

section Timed

variable {p q : Program} {res : Except Error Unit} {i : Instr} {labels : LabelTable} {x : ℕ × ℕ}

/-- Playing writes the register that holds the time of the generator's output. -/
theorem Step.target_of_play {ch : ℕ} {name : String} {t : Option ℕ}
    (h : (Step.play ch name t).apply.apply p = (res, q)) (hi : i ∈ p.appended q)
    (hx : (i.withAddresses labels).target? = some x) :
    ch < p.board.gens.length ∧ x = ((PulseRegs.ofGen ch).page, (PulseRegs.ofGen ch).time) := by
  cases Step.makes_of_mem_appended h i hi with
  | playLoad hch =>
    rw [Build.withAddresses_loadInstr, Build.target?_loadInstr] at hx
    exact ⟨hch, (Option.some.inj hx).symm⟩
  | playWave => simp [Instr.target?, Instr.withAddresses, Action.ofMnemonic, Build.playInstr] at hx

/-- Triggering writes the register that holds the time of a trigger. -/
theorem Step.target_of_trigger {ros pins : List ℕ} {t width : ℕ}
    (h : (Step.trigger ros pins t width).apply.apply p = (res, q)) (hi : i ∈ p.appended q)
    (hx : (i.withAddresses labels).target? = some x) : x = (triggerPage, triggerTimeReg) := by
  cases Step.makes_of_mem_appended h i hi with
  | triggerLoad =>
    rw [Build.withAddresses_loadInstr, Build.target?_loadInstr] at hx
    exact (Option.some.inj hx).symm
  | triggerPort => simp [Instr.target?, Instr.withAddresses, Action.ofMnemonic, Build.portInstr] at hx
  | triggerMarker => simp [Instr.target?, Instr.withAddresses, Action.ofMnemonic, Build.markerInstr] at hx

/-- A step about outputs in time writes registers that the board reserves. -/
theorem Step.Timed.reserves {s : Step} (hs : s.Timed) (h : s.apply.apply p = (res, q)) (hi : i ∈ p.appended q)
    (hx : (i.withAddresses labels).target? = some x) : p.board.Reserves x.1 x.2 := by
  cases s with
  | play ch name t =>
    obtain ⟨hch, rfl⟩ := Step.target_of_play h hi hx
    exact Board.reserves_pulse_time hch
  | trigger ros pins t width =>
    obtain rfl := Step.target_of_trigger h hi hx
    exact Board.reserves_trigger_time _
  | syncAll | wait | waitAll =>
    -- these write no register at all
    cases Step.makes_of_mem_appended h i hi
    simp [Instr.target?, Instr.withAddresses, Action.ofMnemonic] at hx
  | _ => exact hs.elim

/-- What calls hand out is not reserved. -/
theorem Program.not_reserves_of_mem_returned (hp : p.Guarded) {calls : List Call} {reg : Register}
    (h : reg ∈ p.returned calls) : ¬ p.board.Reserves reg.page reg.addr := by
  intro hres
  have hused := hp.reserved _ _ hres
  rw [isUsed_of_mem_returned h] at hused
  cases hused

/-- The counters of open loops were handed out. -/
theorem Program.counter_mem_returned {os : List Opening} {calls : List Call} {o : Opening}
    (h : o ∈ p.unclosed os calls) : o ∈ os ∨ o.counter ∈ p.returned calls := by
  induction calls generalizing p os with
  | nil => exact Or.inl h
  | cons c calls ih =>
    rw [mem_returned_cons]
    rcases ih h with h | h
    · unfold Call.unclosed at h
      split at h
      · split at h
        · rename_i hopen
          rcases List.mem_cons.mp h with rfl | h
          · exact Or.inr (Or.inl (by simp only [Call.returned?, hopen, Except.toOption]))
          · exact Or.inl h
        · exact Or.inl h
      · split at h
        · exact Or.inl (List.mem_of_mem_tail h)
        · exact Or.inl h
      · exact Or.inl h
    · exact Or.inr (Or.inr h)

end Timed

/-! ### Running -/

/-- In a program that was built on, the machine leaves alone what no instruction of a part
targets, while it is in that part. -/
theorem Program.reg?_step_of_appended {p q r : Program} {words : List Word} (hp : p.Laid) (hq : q.Laid) (hr : r.Laid)
    (hpq : p.Extends q) (hqr : q.Extends r) (hwords : r.assemble = .ok words) {page reg : ℕ}
    (htarget : ∀ i ∈ p.appended q, (i.withAddresses r.labels).target? ≠ some (page, reg)) {m : Machine}
    (hle : p.nextAddr ≤ m.pc) (hlt : m.pc < q.nextAddr) :
    ((step (Code.ofWords words)).apply m).2.reg? page reg = m.reg? page reg := by
  have hloaded := (Program.Loaded.of_assemble hr hwords).of_extends hq hqr
  obtain ⟨hcode, hnext⟩ := hloaded.holdsAll_appended hp hpq
  obtain ⟨j, hj, hmem⟩ := hcode.exists_holds hle (hnext ▸ hlt)
  refine reg?_step_of_holds hj ?_
  rcases hmem with hmem | rfl
  · obtain ⟨i, hi, rfl⟩ := List.mem_map.mp hmem
    exact htarget i hi
  · intro h
    cases h

/-- **Reserved and handed-out registers never mix**: a board has an empty program exactly
if it passes its check. From there, after any history of calls, the registers that were
handed out, those of open loops among them, are all different, and none of them is a
register of a generator or of the trigger unit. Playing writes only the time register of
the generator, and triggering only the time register of the trigger unit. So wherever the
machine is in the code of a step that plays, triggers, synchronizes or waits, whatever was
built around it, its next step leaves alone every register that was handed out. -/
theorem reserved_registers_never_mix {board : Board} :
    ((∃ p, Program.ofBoard board = .ok p) ↔ board.validate = .ok ()) ∧
    ∀ p₀, Program.ofBoard board = .ok p₀ →
      (∀ calls,
        ((p₀.returned calls).map (·.place)).Nodup ∧
        (∀ reg ∈ (p₀.afterCalls calls).loops, reg ∈ p₀.returned calls) ∧
        ∀ reg ∈ p₀.returned calls,
          (∀ ch < board.gens.length, ∀ e ∈ (PulseRegs.ofGen ch).named,
            reg.place ≠ ((PulseRegs.ofGen ch).page, e.2.1)) ∧
          reg.place ≠ (0, 30) ∧ reg.place ≠ (0, 31)) ∧
      ∀ before s p q, p₀.afterCalls before = p → (Call.step s).run p = q →
        (∀ ch name t, s = .play ch name t → ∀ i ∈ p.appended q, ∀ labels x,
          (i.withAddresses labels).target? = some x →
            ch < board.gens.length ∧ x = ((PulseRegs.ofGen ch).page, (PulseRegs.ofGen ch).time)) ∧
        (∀ ros pins t width, s = .trigger ros pins t width → ∀ i ∈ p.appended q, ∀ labels x,
          (i.withAddresses labels).target? = some x → x = (0, 30)) ∧
        (s.Timed → ∀ later words, (q.afterCalls later).assemble = .ok words →
          ∀ m : Machine, p.nextAddr ≤ m.pc → m.pc < q.nextAddr →
            ∀ reg ∈ p₀.returned (before ++ .step s :: later),
              ((step (Code.ofWords words)).apply m).2.reg? reg.page reg.addr = m.reg? reg.page reg.addr) := by
  refine ⟨Program.exists_ofBoard_iff, ?_⟩
  intro p₀ h₀
  have hguarded := Program.Guarded.ofBoard h₀
  have hreach : Reachable board p₀ := .start h₀
  have hboard : p₀.board = board := hreach.board_eq.1
  have hfree : ∀ calls, ∀ reg ∈ p₀.returned calls, ∀ x, board.Reserves x.1 x.2 → reg.place ≠ x := by
    rintro calls reg hreg _ hres rfl
    rw [← hboard] at hres
    exact Program.not_reserves_of_mem_returned hguarded hreg hres
  refine ⟨?_, ?_⟩
  · intro calls
    refine ⟨Program.nodup_places_returned hguarded.perPage, ?_, ?_⟩
    · intro reg hreg
      rw [((Program.Tracks.empty h₀).afterCalls hreach calls).loops] at hreg
      obtain ⟨o, ho, rfl⟩ := List.mem_map.mp hreg
      exact (Program.counter_mem_returned ho).resolve_left List.not_mem_nil
    · intro reg hreg
      exact ⟨fun ch hch e he => hfree calls reg hreg _ (Board.reserves_pulse hch he),
        hfree calls reg hreg _ board.reserves_trigger_time, hfree calls reg hreg _ board.reserves_trigger_out⟩
  · intro before s p q hp hq
    have hpreach : Reachable board p := hp ▸ hreach.afterCalls before
    have hqreach : Reachable board q := hq ▸ hpreach.run (.step s)
    have happly : s.apply.apply p = ((s.apply.apply p).1, q) := by rw [← hq]; rfl
    have hpboard : p.board = board := hpreach.board_eq.1
    refine ⟨?_, ?_, ?_⟩
    · rintro ch name t rfl i hi labels x hx
      exact hpboard ▸ Step.target_of_play happly hi hx
    · rintro ros pins t width rfl i hi labels x hx
      exact Step.target_of_trigger happly hi hx
    · intro hs later words hwords m hle hlt reg hreg
      refine Program.reg?_step_of_appended hpreach.laid hqreach.laid (hqreach.afterCalls later).laid
        (Step.edits_of_apply happly).extends (q.extends_afterCalls later) hwords ?_ hle hlt
      intro i hi htarget
      exact hfree _ reg hreg _ (hpboard ▸ hs.reserves happly hi htarget) rfl

/-- A board with one generator. -/
def generatorBoard : Board := { bareBoard with gens := [{}] }

/-- A register between those of two generators, and a loop that is open. -/
def handOutCalls : List Call :=
  [.step (.reg 0 (some 22) (some "x") .generic (some 7)),
    .step (.pulse 0 "tone"
      [("style", .str "const"), ("freq", .int 100), ("phase", .int 0), ("gain", .int 1), ("length", .int 40)]),
    .step (.openLoop 3 none)]

/-- A pulse is played in the loop: its load and its output stand at addresses 2 and 3, and
neither changes the register or the counter. -/
theorem reserved_registers_never_mix_in_loop :
    ∃ p₀ p q words, Program.ofBoard generatorBoard = .ok p₀ ∧ p₀.afterCalls handOutCalls = p ∧
      (Call.step (.play 0 "tone" none)).run p = q ∧
      (q.afterCalls [.step .closeLoop, .step .finish]).assemble = .ok words ∧ p.nextAddr = 2 ∧ q.nextAddr = 4 ∧
      ∀ m : Machine, 2 ≤ m.pc → m.pc < 4 →
        ((step (Code.ofWords words)).apply m).2.reg? 0 22 = m.reg? 0 22 ∧
        ((step (Code.ofWords words)).apply m).2.reg? 0 0 = m.reg? 0 0 := by
  obtain ⟨p₀, h₀⟩ := reserved_registers_never_mix.1.mpr (show generatorBoard.validate = .ok () from rfl)
  obtain ⟨-, -, hkeeps⟩ := (reserved_registers_never_mix.2 p₀ h₀).2 handOutCalls (.play 0 "tone" none) _ _ rfl rfl
  have hrun : (Program.ofBoard generatorBoard).toOption.map (fun p₀ =>
      let p := p₀.afterCalls handOutCalls
      let q := (Call.step (.play 0 "tone" none)).run p
      (p.nextAddr, q.nextAddr, (q.afterCalls [.step .closeLoop, .step .finish]).assemble.isOk,
        (p₀.returned (handOutCalls ++ [.step (.play 0 "tone" none), .step .closeLoop, .step .finish])).map (·.place))) =
      some (2, 4, true, [(0, 22), (0, 0)]) := by decide +kernel
  rw [h₀] at hrun
  obtain ⟨hp, hq, hok, hplaces⟩ : _ ∧ _ ∧ _ ∧ _ := by simpa [Except.toOption] using hrun
  cases hwords : (((Call.step (.play 0 "tone" none)).run (p₀.afterCalls handOutCalls)).afterCalls
      [.step .closeLoop, .step .finish]).assemble with
  | error e =>
    rw [hwords] at hok
    cases hok
  | ok words =>
    have hkeep : ∀ m : Machine, 2 ≤ m.pc → m.pc < 4 → ∀ x ∈ [(0, 22), (0, 0)],
        ((step (Code.ofWords words)).apply m).2.reg? x.1 x.2 = m.reg? x.1 x.2 := by
      intro m hle hlt x hx
      rw [← hplaces] at hx
      obtain ⟨reg, hreg, rfl⟩ := List.mem_map.mp hx
      exact hkeeps trivial _ words hwords m (hp ▸ hle) (hq ▸ hlt) reg hreg
    refine ⟨p₀, _, _, words, h₀, rfl, rfl, hwords, hp, hq, ?_⟩
    intro m hle hlt
    exact ⟨hkeep m hle hlt (0, 22) (by simp), hkeep m hle hlt (0, 0) (by simp)⟩

end PulseAsm
