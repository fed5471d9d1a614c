import PulseAsm.Program.Builder
import PulseAsm.Proofs.Keys
import PulseAsm.Proofs.Outcome
import PulseAsm.Proofs.Program.Build

/-!
# Handing out registers

What handing out a register does to the register file (`RegisterFile.Allocates`), and
when a request is met: exactly if there is an address for it (`RegisterFile.Offers`)
and its name is new (`RegisterFile.exists_allocate_iff`).

The file keeps a bit for each address and a list of the registers, side by side. The
invariant that ties them together is `RegisterFile.Exact`: a bit is set exactly if a
register stands there, and no two registers share a place or a name. Every request
keeps it, whether it is met or not: one that is not met has set no bit yet
(`RegisterFile.allocateInPlace_apply`).
-/

namespace PulseAsm

/-- Where a register is: its page and its address. -/
def Register.place (r : Register) : ℕ × ℕ := (r.page, r.addr)

/-- What is known of a register that is handed out: it is what was asked for, neither
its place nor its name was in use, its place is in use then along with all that were
before and no others, and it is on one of the pages. -/
structure RegisterFile.Allocates (f : RegisterFile) (r : RegRequest) (reg : Register) (f' : RegisterFile) : Prop where
  page : reg.page = r.page
  init : reg.init = r.init
  name : reg.name = RegisterFile.chooseName r reg.addr
  kind : reg.kind = r.kind
  owner : reg.owner = r.owner
  wish : ∀ a, r.addr = some a → reg.addr = a
  addr_lt : reg.addr < f.perPage
  free : f.isUsed reg.page reg.addr = false
  lowest : r.addr = none → ∀ a < reg.addr, f.isUsed reg.page a = true
  unused : f.get? reg.name = none
  taken : reg.addr < 32 → f'.isUsed reg.page reg.addr = true
  used : ∀ page addr, f.isUsed page addr = true → f'.isUsed page addr = true
  only : ∀ page addr, f'.isUsed page addr = true → f.isUsed page addr = true ∨ reg.place = (page, addr)
  perPage : f'.perPage = f.perPage
  page_lt : reg.page < f.used.length
  pages : f'.used.length = f.used.length
  registers : f'.registers = f.registers ++ [reg]

namespace RegisterFile

variable {f f' : RegisterFile} {r : RegRequest} {reg : Register}

/-! ### When a request is met -/

/-- The address is the one that a request gets: the page exists, the address is in range
and free, and it is the one that was asked for or else the lowest of its kind. -/
structure Offers (f : RegisterFile) (r : RegRequest) (a : ℕ) : Prop where
  page_lt : r.page < f.used.length
  addr_lt : a < f.perPage
  free : f.isUsed r.page a = false
  wish : ∀ b, r.addr = some b → a = b
  lowest : r.addr = none → ∀ b < a, f.isUsed r.page b = true

theorem isUsed_of_page {page : ℕ} {bits : BitVec 32} (h : f.used[page]? = some bits) (addr : ℕ) :
    f.isUsed page addr = bits.getLsbD addr := by
  simp only [isUsed, h]

theorem chooseName_eq (r : RegRequest) (a : ℕ) : chooseName r a = r.name.getD s!"reg_p{r.page}_{a}" := by
  unfold chooseName
  cases r.name <;> rfl

/-- The address is chosen exactly if it is on offer. -/
theorem chooseAddr_eq_ok_iff {bits : BitVec 32} (hbits : f.used[r.page]? = some bits) {a : ℕ} :
    f.chooseAddr r bits = .ok a ↔ f.Offers r a := by
  have hpage : r.page < f.used.length := (List.getElem?_eq_some_iff.mp hbits).1
  unfold chooseAddr
  cases hr : r.addr with
  | some b =>
    simp only
    constructor
    · intro h
      split at h
      · cases h
      · split at h
        · cases h
        · cases h
          exact ⟨hpage, by omega, by rw [isUsed_of_page hbits]; simp_all, by simp [hr], by simp [hr]⟩
    · intro h
      obtain rfl := h.wish b hr
      have hlt := h.addr_lt
      have hfree := h.free
      rw [isUsed_of_page hbits] at hfree
      rw [if_neg (by omega), if_neg (by simp [hfree])]
  | none =>
    simp only
    constructor
    · intro h
      split at h
      · rename_i b hfind
        cases h
        obtain ⟨hfree, hmem, hlower⟩ := List.find?_range_eq_some.mp hfind
        refine ⟨hpage, List.mem_range.mp hmem, ?_, by simp [hr], fun _ b hb => ?_⟩
        · rw [isUsed_of_page hbits]
          simpa using hfree
        · rw [isUsed_of_page hbits]
          simpa using hlower b hb
      · cases h
    · intro h
      have hfind : (List.range f.perPage).find? (fun a => !bits.getLsbD a) = some a := by
        simp only [List.find?_range_eq_some, List.mem_range, ← isUsed_of_page hbits]
        exact ⟨by simp [h.free], h.addr_lt, fun b hb => by simp [h.lowest hr b hb]⟩
      rw [hfind]

/-- Of the names that are given out, none is found yet. -/
theorem get?_eq_none_iff {name : String} : f.get? name = none ↔ ∀ reg ∈ f.registers, reg.name ≠ name := by
  simp [get?, List.find?_eq_none]

/-- The bits of a page with one more address taken. -/
theorem getLsbD_or_bit (bits : BitVec 32) (a b : ℕ) :
    (bits ||| 1#32 <<< a).getLsbD b = (bits.getLsbD b || decide (b = a ∧ a < 32)) := by
  rw [BitVec.getLsbD_or, BitVec.getLsbD_shiftLeft, BitVec.getLsbD_one]
  congr 1
  by_cases hb : b = a
  · subst hb
    simp
  · simp only [hb, false_and, decide_false]
    simp
    omega

/-- What handing out a register does, from the address that was chosen. -/
theorem allocate_of_offers {a : ℕ} (h : f.Offers r a) (hname : f.get? (chooseName r a) = none) :
    ∃ bits, f.used[r.page]? = some bits ∧
      f.allocate r = .ok (⟨r.page, a, r.kind, r.init, chooseName r a, r.owner⟩,
        { f with
          used := f.used.set r.page (bits ||| 1#32 <<< a)
          registers := f.registers ++ [⟨r.page, a, r.kind, r.init, chooseName r a, r.owner⟩] }) := by
  have hlt := h.page_lt
  have hbits : f.used[r.page]? = some f.used[r.page] := List.getElem?_eq_getElem hlt
  refine ⟨_, hbits, ?_⟩
  simp only [allocate, hbits, (chooseAddr_eq_ok_iff hbits).mpr h, hname]

/-- A request is met exactly if there is an address for it and its name is new. -/
theorem exists_allocate_iff :
    (∃ reg f', f.allocate r = .ok (reg, f')) ↔ ∃ a, f.Offers r a ∧ f.get? (chooseName r a) = none := by
  constructor
  · rintro ⟨reg, f', h⟩
    unfold allocate at h
    cases hbits : f.used[r.page]? with
    | none => simp [hbits] at h
    | some bits =>
      simp only [hbits] at h
      cases haddr : f.chooseAddr r bits with
      | error e => simp [haddr] at h
      | ok a =>
        simp only [haddr] at h
        cases hname : f.get? (chooseName r a) with
        | some _ => simp [hname] at h
        | none => exact ⟨a, (chooseAddr_eq_ok_iff hbits).mp haddr, hname⟩
  · rintro ⟨a, hoffers, hname⟩
    obtain ⟨bits, -, h⟩ := allocate_of_offers hoffers hname
    exact ⟨_, _, h⟩

/-- The places in use once a register has been handed out. -/
theorem isUsed_set {page a : ℕ} {bits : BitVec 32} (hbits : f.used[page]? = some bits) (page' addr : ℕ) :
    isUsed { f with used := f.used.set page (bits ||| 1#32 <<< a) } page' addr =
      (f.isUsed page' addr || decide (page' = page ∧ addr = a ∧ a < 32)) := by
  have hlt : page < f.used.length := (List.getElem?_eq_some_iff.mp hbits).1
  by_cases hpage : page' = page
  · subst hpage
    have hset : (f.used.set page' (bits ||| 1#32 <<< a))[page']? = some (bits ||| 1#32 <<< a) :=
      List.getElem?_set_self hlt
    rw [isUsed_of_page hbits]
    simp only [isUsed, hset, getLsbD_or_bit, true_and]
  · simp [isUsed, List.getElem?_set_ne (Ne.symm hpage), hpage]

theorem allocates_of_allocate (h : f.allocate r = .ok (reg, f')) : f.Allocates r reg f' := by
  obtain ⟨a, hoffers, hname⟩ := exists_allocate_iff.mp ⟨reg, f', h⟩
  obtain ⟨bits, hbits, heq⟩ := allocate_of_offers hoffers hname
  rw [heq] at h
  cases h
  have hused := isUsed_set (a := a) hbits
  exact {
    page := rfl
    init := rfl
    name := rfl
    kind := rfl
    owner := rfl
    wish := hoffers.wish
    addr_lt := hoffers.addr_lt
    free := hoffers.free
    lowest := hoffers.lowest
    unused := hname
    taken := fun ha => (hused r.page a).trans (by simp [ha])
    used := fun page addr h => (hused page addr).trans (by simp [h])
    only := fun page addr h => by
      have h := (hused page addr).symm.trans h
      simp only [Bool.or_eq_true, decide_eq_true_eq] at h
      exact h.imp_right fun hplace => by simp [Register.place, hplace.1, hplace.2.1]
    perPage := rfl
    page_lt := hoffers.page_lt
    pages := List.length_set
    registers := rfl }

/-- One place is in use besides those before. -/
theorem Allocates.isUsed_iff (h : f.Allocates r reg f') (hf : f.perPage ≤ 32) (page addr : ℕ) :
    f'.isUsed page addr = true ↔ f.isUsed page addr = true ∨ reg.place = (page, addr) := by
  constructor
  · exact h.only page addr
  · rintro (hused | hplace)
    · exact h.used page addr hused
    · cases hplace
      exact h.taken (Nat.lt_of_lt_of_le h.addr_lt hf)

/-- The file has `pages` pages of at most 32 registers, and its registers are on them. -/
structure Bounded (f : RegisterFile) (pages : ℕ) : Prop where
  perPage : f.perPage ≤ 32
  size : f.used.length = pages
  register : ∀ reg ∈ f.registers, reg.page < pages ∧ reg.addr < 32

theorem bounded_empty (pages perPage : ℕ) : (empty pages perPage).Bounded pages :=
  ⟨Nat.min_le_right _ _, List.length_replicate, by simp [empty]⟩

theorem Allocates.inRange {pages : ℕ} (h : f.Allocates r reg f') (hf : f.Bounded pages) :
    reg.page < pages ∧ reg.addr < 32 :=
  ⟨hf.size ▸ h.page_lt, Nat.lt_of_lt_of_le h.addr_lt hf.perPage⟩

theorem Bounded.allocate {pages : ℕ} (hf : f.Bounded pages) (h : f.Allocates r reg f') : f'.Bounded pages := by
  refine ⟨h.perPage ▸ hf.perPage, h.pages.trans hf.size, fun reg' hreg' => ?_⟩
  rw [h.registers, List.mem_append, List.mem_singleton] at hreg'
  rcases hreg' with hreg' | rfl
  · exact hf.register reg' hreg'
  · exact h.inRange hf

/-! ### Bits and registers agree -/

/-- The file keeps count: the places in use are those of its registers, no two of which
share a place or a name, and all of which are in range. -/
structure Exact (f : RegisterFile) : Prop where
  used : ∀ page addr, f.isUsed page addr = true ↔ ∃ reg ∈ f.registers, reg.place = (page, addr)
  places : (f.registers.map (·.place)).Nodup
  names : (f.registers.map (·.name)).Nodup
  inRange : ∀ reg ∈ f.registers, reg.page < f.used.length ∧ reg.addr < f.perPage
  perPage : f.perPage ≤ 32

theorem exact_empty (pages perPage : ℕ) : (empty pages perPage).Exact where
  used := by
    intro page addr
    by_cases hpage : page < pages <;> simp [isUsed, empty, hpage]
  places := List.nodup_nil
  names := List.nodup_nil
  inRange := List.forall_mem_nil _
  perPage := Nat.min_le_right _ _

namespace Exact

/-- A request that is met adds one bit and one register. -/
theorem allocate (hf : f.Exact) (h : f.Allocates r reg f') : f'.Exact where
  used := by
    intro page addr
    rw [h.isUsed_iff hf.perPage, hf.used, h.registers]
    simp only [List.mem_append, List.mem_singleton, or_and_right, exists_or, exists_eq_left]
  places := by
    rw [h.registers]
    refine nodup_keys_concat hf.places ?_
    intro reg' hreg' hplace
    have hused := (hf.used reg.page reg.addr).mpr ⟨reg', hreg', hplace⟩
    rw [h.free] at hused
    cases hused
  names := by
    rw [h.registers]
    exact nodup_keys_concat hf.names (get?_eq_none_iff.mp h.unused)
  inRange := by
    intro reg' hreg'
    rw [h.perPage, h.pages]
    rw [h.registers, List.mem_append, List.mem_singleton] at hreg'
    rcases hreg' with hreg' | rfl
    · exact hf.inRange reg' hreg'
    · exact ⟨h.page_lt, h.addr_lt⟩
  perPage := h.perPage ▸ hf.perPage

/-- Every register is found by its name. -/
theorem get?_name (hf : f.Exact) (h : reg ∈ f.registers) : f.get? reg.name = some reg :=
  find?_eq_self (List.pairwise_map.mp hf.names) h

end Exact

/-! ### Sequences of requests -/

/-- Hand out a register in place, after all checks: the bit of its address is set, and then
the register goes to the end. -/
def allocateInPlace (r : RegRequest) : InPlace Error RegisterFile Register := do
  let f ← get
  match f.used[r.page]? with
  | none => throw (.outOfRange "register page" r.page s!"[0, {f.used.length})")
  | some bits =>
    let addr ← f.chooseAddr r bits
    let name := chooseName r addr
    if (f.get? name).isSome then throw (.duplicateRegister name)
    modify fun f => { f with used := f.used.set r.page (bits ||| 1#32 <<< addr) }
    let reg : Register := ⟨r.page, addr, r.kind, r.init, name, r.owner⟩
    modify fun f => { f with registers := f.registers ++ [reg] }
    return reg

/-- In place or not, handing out comes to the same, and if it fails nothing has been written. -/
theorem allocateInPlace_apply (r : RegRequest) (f : RegisterFile) :
    (allocateInPlace r).apply f = leave f (f.allocate r) := by
  unfold allocateInPlace allocate
  rw [InPlace.apply_get_bind]
  cases f.used[r.page]? with
  | none => rfl
  | some bits =>
    dsimp only
    cases f.chooseAddr r bits with
    | error e => rfl
    | ok addr =>
      rw [InPlace.apply_ok_bind]
      dsimp only
      cases f.get? (chooseName r addr) with
      | some _ => rfl
      | none => rfl

/-- The file after a request; one that is not met leaves it as it is. -/
def request (f : RegisterFile) (r : RegRequest) : RegisterFile := ((allocateInPlace r).apply f).2

/-- The file after any sequence of requests, those that are not met included. -/
def requestAll (f : RegisterFile) (rs : List RegRequest) : RegisterFile := rs.foldl request f

/-- A request leaves the size of the file alone, and keeps it exact. -/
theorem request_keeps (hf : f.Exact) (r : RegRequest) :
    (f.request r).Exact ∧ (f.request r).perPage = f.perPage ∧ (f.request r).used.length = f.used.length := by
  rw [request, allocateInPlace_apply]
  cases h : f.allocate r with
  | error e => exact ⟨hf, rfl, rfl⟩
  | ok res =>
    have halloc : f.Allocates r res.1 res.2 := allocates_of_allocate h
    exact ⟨hf.allocate halloc, halloc.perPage, halloc.pages⟩

theorem requestAll_keeps (hf : f.Exact) (rs : List RegRequest) :
    (f.requestAll rs).Exact ∧ (f.requestAll rs).perPage = f.perPage ∧
      (f.requestAll rs).used.length = f.used.length := by
  induction rs generalizing f with
  | nil => exact ⟨hf, rfl, rfl⟩
  | cons r rs ih =>
    obtain ⟨hexact, hperPage, hpages⟩ := request_keeps hf r
    obtain ⟨hexact', hperPage', hpages'⟩ := ih hexact
    exact ⟨hexact', hperPage'.trans hperPage, hpages'.trans hpages⟩

/-- What holds of a file and survives every request that is met holds after all of them. -/
theorem allocateAll_preserves {P : RegisterFile → Prop} {rs : List RegRequest} (h : Program.allocateAll f rs = .ok f')
    (hf : P f) (hstep : ∀ r reg g g', Allocates g r reg g' → P g → P g') : P f' := by
  induction rs generalizing f with
  | nil =>
    cases h
    exact hf
  | cons r rs ih =>
    obtain ⟨⟨reg, g⟩, halloc, h⟩ := bind_eq_ok_iff.mp h
    exact ih h (hstep r reg f g (allocates_of_allocate halloc) hf)

end RegisterFile

/-- A request that is not met fails the call, and leaves the program as it was. -/
theorem Build.newReg_of_error {r : RegRequest} {e : Error} {p : Program} (h : p.registers.allocate r = .error e) :
    (newReg r).apply p = (.error e, p) := by
  unfold newReg
  rw [apply_get_bind, apply_lift_bind, h]

open RegisterFile in
/-- **The register file keeps count**: after any sequence of requests to an empty file,
whether they are met or not, an address is in use exactly if a register stands there, no
two registers share a place or a name, and each register is found by its name and is in
range. A request is met exactly if there is an address on offer for it, which is the one
that it asks for or else the lowest that is free, and if its name, or the one that is
made from page and address, is new. Then one register is added and one address is in use
besides those before; otherwise the file, though it is changed in place, and the program
that asked are left as they were. -/
theorem register_file_keeps_count {pages perPage : ℕ} {rs : List RegRequest} {f : RegisterFile}
    (hf : (empty pages perPage).requestAll rs = f) :
    (∀ page addr, f.isUsed page addr = true ↔ ∃ reg ∈ f.registers, reg.place = (page, addr)) ∧
    (f.registers.map (·.place)).Nodup ∧ (f.registers.map (·.name)).Nodup ∧
    (∀ reg ∈ f.registers, f.get? reg.name = some reg ∧ reg.page < pages ∧ reg.addr < min perPage 32) ∧
    ∀ r : RegRequest,
      ((∃ reg f', f.allocate r = .ok (reg, f')) ↔
        r.page < pages ∧ ∃ a < min perPage 32, f.isUsed r.page a = false ∧ (∀ b, r.addr = some b → a = b) ∧
          (r.addr = none → ∀ b < a, f.isUsed r.page b = true) ∧
          f.get? (r.name.getD s!"reg_p{r.page}_{a}") = none) ∧
      (∀ reg f', f.allocate r = .ok (reg, f') →
        reg = ⟨r.page, reg.addr, r.kind, r.init, r.name.getD s!"reg_p{r.page}_{reg.addr}", r.owner⟩ ∧
        f.isUsed reg.page reg.addr = false ∧ (∀ b, r.addr = some b → reg.addr = b) ∧
        (r.addr = none → ∀ b < reg.addr, f.isUsed reg.page b = true) ∧
        f'.registers = f.registers ++ [reg] ∧ f'.perPage = f.perPage ∧ f'.used.length = f.used.length ∧
        ∀ page addr, f'.isUsed page addr = true ↔ f.isUsed page addr = true ∨ reg.place = (page, addr)) ∧
      ∀ e, f.allocate r = .error e → (allocateInPlace r).apply f = (.error e, f) ∧
        ∀ p : Program, p.registers = f → (Build.newReg r).apply p = (.error e, p) := by
  obtain ⟨hexact, hperPage, hpages⟩ := requestAll_keeps (exact_empty pages perPage) rs
  rw [hf] at hexact hperPage hpages
  have hmin : f.perPage = min perPage 32 := hperPage
  have hsize : f.used.length = pages := hpages.trans List.length_replicate
  refine ⟨hexact.used, hexact.places, hexact.names, ?_, ?_⟩
  · intro reg hreg
    obtain ⟨hpage, haddr⟩ := hexact.inRange reg hreg
    exact ⟨hexact.get?_name hreg, hsize ▸ hpage, hmin ▸ haddr⟩
  intro r
  refine ⟨?_, ?_, ?_⟩
  · rw [exists_allocate_iff, ← hsize, ← hmin]
    constructor
    · rintro ⟨a, h, hname⟩
      exact ⟨h.page_lt, a, h.addr_lt, h.free, h.wish, h.lowest, chooseName_eq r a ▸ hname⟩
    · rintro ⟨hpage, a, haddr, hfree, hwish, hlowest, hname⟩
      exact ⟨a, ⟨hpage, haddr, hfree, hwish, hlowest⟩, (chooseName_eq r a).symm ▸ hname⟩
  · intro reg f' h
    have halloc := allocates_of_allocate h
    refine ⟨?_, halloc.free, halloc.wish, halloc.lowest, halloc.registers, halloc.perPage, halloc.pages,
      halloc.isUsed_iff hexact.perPage⟩
    rw [← chooseName_eq, ← halloc.name, ← halloc.page, ← halloc.kind, ← halloc.init, ← halloc.owner]
  · intro e he
    refine ⟨by rw [allocateInPlace_apply, he, leave], ?_⟩
    rintro p rfl
    exact Build.newReg_of_error he

/-- A register is named like the one that a later request would get by default. That
request is not met, but its address stays free, and a request with a name gets it. -/
theorem register_file_keeps_count_name_clash :
    ∃ f reg f', (RegisterFile.empty 2 4).requestAll
        [{ page := 1, addr := some 0 }, { page := 0, name := some "reg_p1_1" }, { page := 1 }] = f ∧
      f.allocate { page := 1 } = .error (.duplicateRegister "reg_p1_1") ∧
      f.allocate { page := 1, name := some "x" } = .ok (reg, f') ∧ reg.place = (1, 1) ∧
      ∀ page addr, f'.isUsed page addr = true ↔ f.isUsed page addr = true ∨ (1, 1) = (page, addr) := by
  have hfile : (RegisterFile.empty 2 4).requestAll
      [{ page := 1, addr := some 0 }, { page := 0, name := some "reg_p1_1" }, { page := 1 }] = _ := rfl
  obtain ⟨-, -, -, -, hrequest⟩ := register_file_keeps_count hfile
  obtain ⟨-, hmet, -⟩ := hrequest { page := 1, name := some "x" }
  obtain ⟨-, -, -, -, -, -, -, hused⟩ := hmet _ _ rfl
  exact ⟨_, _, _, rfl, rfl, rfl, rfl, hused⟩

end PulseAsm
