import Rv32emu.SysTemplate

/-!
# Trap entry and return

`_trap_handler` with a trap vector, followed by the `SRET` or `MRET` of a handler that writes no CSR.

* `Cpu.trapEnter` : the entry, of either build (`trapHandler_eq_trapEnter`, `trapHandlerWith_eq_trapEnter`);
* `Level` : the supervisor and the machine half, with the bits of the status register each of them uses;
* `EntryRight`, `ReturnRight` : what the privileged architecture asks for;
* `TrapClean` : the states before a trap from which the code does so;
* `TrapRun` : traps one after the other.
-/

namespace Rv32emu

/-! ## Entry and return -/

/-- `_trap_handler` with a trap vector, up to the nested interpreter. -/
def Cpu.trapEnter (s : Cpu) : Cpu :=
  if s.isUOrSMode then
    vectorTo (s.csr.stvec &&& ~~~0x3) (s.csr.stvec &&& 0x3) s.csr.scause (enterSupervisor s)
  else vectorTo (s.csr.mtvec &&& ~~~0x3) (s.csr.mtvec &&& 0x3) s.csr.mcause (enterMachine s)

/-- The trap vector of the privilege group is set. -/
def Cpu.HasVector (s : Cpu) : Prop :=
  if s.isUOrSMode then s.csr.stvec ≠ 0 else s.csr.mtvec ≠ 0

theorem trapHandler_eq_trapEnter (env : Env) {s : Cpu} (h : s.HasVector) :
    trapHandler env s = s.trapEnter := by
  unfold trapHandler Cpu.trapEnter
  unfold Cpu.HasVector at h
  cases hmode : s.isUOrSMode with
  | true => rfl
  | false =>
    rw [hmode, if_neg Bool.false_ne_true] at h
    simp only [Bool.false_eq_true, if_false, if_neg h]

/-- `last_csr_sepc` in a `SYSTEM` build. -/
def Sys.trapEnter (s : Sys) : Sys :=
  { s with cpu := s.cpu.trapEnter, lastCsrSepc := if s.cpu.isUOrSMode then s.cpu.PC else s.lastCsrSepc }

theorem trapHandlerWith_eq_trapEnter (loop : SysM Unit) {s : Sys} (h : s.cpu.HasVector) :
    trapHandlerWith loop s = if s.isTrapped then loop s.trapEnter else some ((), s.trapEnter) := by
  unfold trapHandlerWith Sys.trapEnter Cpu.trapEnter
  unfold Cpu.HasVector at h
  simp only [vectorThen, modifyCpu, bind, StateT.bind, get, getThe, MonadStateOf.get, StateT.get, pure,
    Option.bind_some]
  cases hmode : s.cpu.isUOrSMode with
  | true =>
    rw [hmode, if_pos rfl] at h
    simp only [if_true, if_neg h]
    change (if s.isTrapped = true then loop else StateT.pure ()) _ = _
    split_ifs <;> rfl
  | false =>
    rw [hmode, if_neg Bool.false_ne_true] at h
    simp only [Bool.false_eq_true, if_false, if_neg h]
    change (if s.isTrapped = true then loop else StateT.pure ()) _ = _
    split_ifs <;> rfl

/-- `SRET` and `MRET` on the processor state. -/
def Cpu.sret (s : Cpu) : Cpu := (doSret { cpu := s }).cpu

theorem doSret_cpu (s : Sys) : (doSret s).cpu = s.cpu.sret := rfl

/-! ## The two privilege groups -/

/-- The registers and the bits of the status register that a privilege group uses. -/
structure Level where
  status : Csr → Word
  epc : Csr → Word
  tvec : Csr → Word
  cause : Csr → Word
  ie : Nat
  pie : Nat
  pp : Word → Word
  ret : Cpu → Cpu

def Level.supervisor : Level where
  status := Csr.sstatus
  epc := Csr.sepc
  tvec := Csr.stvec
  cause := Csr.scause
  ie := 1
  pie := 5
  pp w := (w &&& 0x100) >>> 8
  ret := Cpu.sret

def Level.machine : Level where
  status := Csr.mstatus
  epc := Csr.mepc
  tvec := Csr.mtvec
  cause := Csr.mcause
  ie := 3
  pie := 7
  pp w := (w &&& 0x1800) >>> 11
  ret := doMret

/-- Traps of U- and S-mode are handled in S-mode, the others in M-mode. -/
def Cpu.level (s : Cpu) : Level := if s.isUOrSMode then .supervisor else .machine

namespace Level

def ieBit (l : Level) (s : Cpu) : Bool := (l.status s.csr).getLsbD l.ie

def pieBit (l : Level) (s : Cpu) : Bool := (l.status s.csr).getLsbD l.pie

def ppField (l : Level) (s : Cpu) : Word := l.pp (l.status s.csr)

/-- `xtvec` without its mode. -/
def base (l : Level) (s : Cpu) : Word := l.tvec s.csr &&& ~~~0x3

def mode (l : Level) (s : Cpu) : Word := l.tvec s.csr &&& 0x3

def code (l : Level) (s : Cpu) : Word := l.cause s.csr &&& 0x7fffffff

def isInterrupt (l : Level) (s : Cpu) : Bool := (l.cause s.csr).getLsbD 31

end Level

structure EntryRight (l : Level) (s s' : Cpu) : Prop where
  epc : l.epc s'.csr = s.PC
  pie : l.pieBit s' = l.ieBit s
  pp : l.ppField s' = s.privMode
  ie : l.ieBit s' = false
  pc : s'.PC = if l.isInterrupt s ∧ l.mode s = 1 then l.base s + 4 * l.code s else l.base s

/-- What the return of the handler has to do: mode, interrupt enable and `PC` are back. -/
structure ReturnRight (l : Level) (s s' : Cpu) : Prop where
  mode : s'.privMode = s.privMode
  ie : l.ieBit s' = l.ieBit s
  pc : s'.PC = s.PC

/-- A handler that has not written the registers its return reads. -/
structure Level.Kept (l : Level) (s s' : Cpu) : Prop where
  status : l.status s'.csr = l.status s.csr
  epc : l.epc s'.csr = l.epc s.csr

/-- A trap from `s` and the return of any such handler do what they have to. -/
def TrapRight (s : Cpu) : Prop :=
  EntryRight s.level s s.trapEnter ∧
    ∀ s', s.level.Kept s.trapEnter s' → ReturnRight s.level s (s.level.ret s')

/-- The stale bits do no harm, and the vector is not used for an exception. -/
structure TrapClean (s : Cpu) : Prop where
  pie : s.level.pieBit s = true → s.level.ieBit s = true
  pp : s.level.ppField s &&& ~~~s.privMode = 0
  vector : s.level.mode s = 0 ∨
    s.level.mode s = 1 ∧ (s.level.isInterrupt s = true ∨ 4 * s.level.code s = 0) ∨
    s.level.mode s ≠ 0 ∧ s.level.mode s ≠ 1 ∧ s.PC = s.level.base s

/-! ## The bits -/

section Bits

/-- `SIE`, `SPIE` and `SPP` after the entry. -/
theorem enterSupervisor_status (w : Word) {priv : Word} (h : priv = 0 ∨ priv = 1) :
    let w' := ((w ||| ((w &&& 0x2) >>> 1) <<< 5) &&& ~~~(0x2 : Word)) ||| priv <<< 8
    w'.getLsbD 1 = false ∧ w'.getLsbD 5 = (w.getLsbD 5 || w.getLsbD 1) ∧
      (w' &&& 0x100) >>> 8 = (w &&& 0x100) >>> 8 ||| priv := by
  rcases h with rfl | rfl
  all_goals
    refine ⟨by simp, by simp, ?_⟩
    apply BitVec.eq_of_getLsbD_eq
    intro i hi
    interval_cases i <;> simp

/-- `MIE`, `MPIE` and `MPP` after the entry. -/
theorem enterMachine_status (w : Word) {priv : Word} (h : priv = 2 ∨ priv = 3) :
    let w' := ((w ||| ((w &&& 0x8) >>> 3) <<< 7) &&& ~~~(0x8 : Word)) ||| priv <<< 11
    w'.getLsbD 3 = false ∧ w'.getLsbD 7 = (w.getLsbD 7 || w.getLsbD 3) ∧
      (w' &&& 0x1800) >>> 11 = (w &&& 0x1800) >>> 11 ||| priv := by
  rcases h with rfl | rfl
  all_goals
    refine ⟨by simp, by simp, ?_⟩
    apply BitVec.eq_of_getLsbD_eq
    intro i hi
    interval_cases i <;> simp

/-- `SIE` after `SRET`. -/
theorem sret_status (w : Word) :
    ((w &&& ~~~(0x100 : Word)) ||| (((w &&& ~~~(0x100 : Word)) &&& 0x20) >>> 5) <<< 1 ||| 0x20).getLsbD 1 =
      (w.getLsbD 1 || w.getLsbD 5) := by
  simp

/-- `MIE` after `MRET`. -/
theorem mret_status (w : Word) :
    ((w &&& ~~~(0x1800 : Word)) ||| (((w &&& ~~~(0x1800 : Word)) &&& 0x80) >>> 7) <<< 3 ||| 0x80).getLsbD 3 =
      (w.getLsbD 3 || w.getLsbD 7) := by
  simp

theorem or_eq_right_iff (x y : Word) : x ||| y = y ↔ x &&& ~~~y = 0 := by
  have hbits : x ||| y = y ↔ ∀ i < 32, (x.getLsbD i || y.getLsbD i) = y.getLsbD i := by
    constructor
    · intro h i _
      rw [← BitVec.getLsbD_or, h]
    · intro h
      refine BitVec.eq_of_getLsbD_eq fun i hi => ?_
      rw [BitVec.getLsbD_or, h i hi]
  have hzero : x &&& ~~~y = 0 ↔ ∀ i < 32, (x.getLsbD i && !y.getLsbD i) = false := by
    constructor
    · intro h i hi
      have hbit := congrArg (fun z => BitVec.getLsbD z i) h
      simpa [hi] using hbit
    · intro h
      refine BitVec.eq_of_getLsbD_eq fun i hi => ?_
      simpa [hi] using h i hi
  rw [hbits, hzero]
  refine forall₂_congr fun i _ => ?_
  cases x.getLsbD i <;> cases y.getLsbD i <;> decide

end Bits

/-- What the entry and the return do to a state, in terms of its level. -/
structure EntersBy (s : Cpu) : Prop where
  epc : s.level.epc s.trapEnter.csr = s.PC
  ie : s.level.ieBit s.trapEnter = false
  pie : s.level.pieBit s.trapEnter = (s.level.pieBit s || s.level.ieBit s)
  pp : s.level.ppField s.trapEnter = s.level.ppField s ||| s.privMode
  pc : s.trapEnter.PC = if s.level.mode s = 0 then s.level.base s
    else if s.level.mode s = 1 then s.level.base s + 4 * s.level.code s else s.PC

theorem vectorTo_csr (base mode cause : Word) (s : Cpu) : (vectorTo base mode cause s).csr = s.csr := by
  unfold vectorTo
  split_ifs <;> rfl

theorem vectorTo_pc (base mode cause : Word) (s : Cpu) : (vectorTo base mode cause s).PC =
    if mode = 0 then base else if mode = 1 then base + 4 * (cause &&& 0x7fffffff) else s.PC := by
  unfold vectorTo
  split_ifs <;> rfl

theorem trapEnter_spec {s : Cpu} (hmode : s.privMode.toNat ≤ 3) : EntersBy s := by
  cases hlevel : s.isUOrSMode with
  | true =>
    have hpriv : s.privMode = 0 ∨ s.privMode = 1 := by
      have hle : s.privMode.toNat ≤ 1 := by simpa [Cpu.isUOrSMode, BitVec.ule] using hlevel
      have hcase : s.privMode.toNat = 0 ∨ s.privMode.toNat = 1 := by omega
      exact hcase.imp (fun h => BitVec.eq_of_toNat_eq h) fun h => BitVec.eq_of_toNat_eq h
    obtain ⟨hie, hpie, hpp⟩ := enterSupervisor_status s.csr.sstatus hpriv
    have hl : s.level = .supervisor := by rw [Cpu.level, hlevel, if_pos rfl]
    have hs : s.trapEnter =
        vectorTo (s.csr.stvec &&& ~~~0x3) (s.csr.stvec &&& 0x3) s.csr.scause (enterSupervisor s) := by
      rw [Cpu.trapEnter, hlevel, if_pos rfl]
    constructor <;> simp only [hl, hs, Level.ieBit, Level.pieBit, Level.ppField, vectorTo_csr]
    · rfl
    · exact hie
    · exact hpie
    · exact hpp
    · exact vectorTo_pc ..
  | false =>
    have hpriv : s.privMode = 2 ∨ s.privMode = 3 := by
      have hlt : 1 < s.privMode.toNat := by simpa [Cpu.isUOrSMode, BitVec.ule] using hlevel
      have hcase : s.privMode.toNat = 2 ∨ s.privMode.toNat = 3 := by omega
      exact hcase.imp (fun h => BitVec.eq_of_toNat_eq h) fun h => BitVec.eq_of_toNat_eq h
    obtain ⟨hie, hpie, hpp⟩ := enterMachine_status s.csr.mstatus hpriv
    have hl : s.level = .machine := by rw [Cpu.level, hlevel, if_neg Bool.false_ne_true]
    have hs : s.trapEnter =
        vectorTo (s.csr.mtvec &&& ~~~0x3) (s.csr.mtvec &&& 0x3) s.csr.mcause (enterMachine s) := by
      rw [Cpu.trapEnter, hlevel, if_neg Bool.false_ne_true]
    constructor <;> simp only [hl, hs, Level.ieBit, Level.pieBit, Level.ppField, vectorTo_csr]
    · rfl
    · exact hie
    · exact hpie
    · exact hpp
    · exact vectorTo_pc ..

/-- What `SRET` and `MRET` do, in terms of the level. -/
theorem level_ret (s s' : Cpu) :
    (s.level.ret s').privMode = s.level.ppField s' ∧ (s.level.ret s').PC = s.level.epc s'.csr ∧
      s.level.ieBit (s.level.ret s') = (s.level.ieBit s' || s.level.pieBit s') := by
  unfold Cpu.level
  split_ifs
  · exact ⟨rfl, rfl, sret_status s'.csr.sstatus⟩
  · exact ⟨rfl, rfl, mret_status s'.csr.mstatus⟩

/-! ## When entry and return are right -/

theorem pc_right_iff {s : Cpu} (h : EntersBy s) :
    (s.trapEnter.PC = if s.level.isInterrupt s ∧ s.level.mode s = 1
        then s.level.base s + 4 * s.level.code s else s.level.base s) ↔
      s.level.mode s = 0 ∨
        s.level.mode s = 1 ∧ (s.level.isInterrupt s = true ∨ 4 * s.level.code s = 0) ∨
        s.level.mode s ≠ 0 ∧ s.level.mode s ≠ 1 ∧ s.PC = s.level.base s := by
  rw [h.pc]
  by_cases h0 : s.level.mode s = 0
  · simp [h0]
  · by_cases h1 : s.level.mode s = 1
    · cases hi : s.level.isInterrupt s <;> simp [h1]
    · rw [if_neg h0, if_neg h1, if_neg fun h => h1 h.2]
      constructor
      · intro hpc
        exact .inr (.inr ⟨h0, h1, hpc⟩)
      · rintro (h | ⟨h, -⟩ | ⟨-, -, hpc⟩)
        · exact absurd h h0
        · exact absurd h h1
        · exact hpc

theorem entryRight_iff {s : Cpu} (h : EntersBy s) : EntryRight s.level s s.trapEnter ↔ TrapClean s := by
  have hpie : (s.level.pieBit s || s.level.ieBit s) = s.level.ieBit s ↔
      (s.level.pieBit s = true → s.level.ieBit s = true) := by
    cases s.level.pieBit s <;> cases s.level.ieBit s <;> decide
  constructor
  · intro hr
    refine ⟨hpie.mp (h.pie.symm.trans hr.pie), ?_, (pc_right_iff h).mp hr.pc⟩
    exact (or_eq_right_iff ..).mp (h.pp.symm.trans hr.pp)
  · intro hc
    refine ⟨h.epc, h.pie.trans (hpie.mpr hc.pie), ?_, h.ie, (pc_right_iff h).mpr hc.vector⟩
    exact h.pp.trans ((or_eq_right_iff ..).mpr hc.pp)

theorem EntryRight.returnRight {s s' : Cpu} (h : EntryRight s.level s s.trapEnter)
    (hkept : s.level.Kept s.trapEnter s') : ReturnRight s.level s (s.level.ret s') := by
  obtain ⟨hmode, hpc, hie⟩ := level_ret s s'
  have hstatus := hkept.status
  refine ⟨?_, ?_, ?_⟩
  · rw [hmode, Level.ppField, hstatus]
    exact h.pp
  · rw [hie, Level.ieBit, Level.pieBit, hstatus]
    have hie' := h.ie
    have hpie' := h.pie
    unfold Level.ieBit at hie' hpie' ⊢
    unfold Level.pieBit at hpie'
    rw [hie', hpie', Bool.false_or]
  · rw [hpc, hkept.epc]
    exact h.epc

theorem trapRight_iff {s : Cpu} (hmode : s.privMode.toNat ≤ 3) : TrapRight s ↔ TrapClean s := by
  have henter := trapEnter_spec hmode
  rw [← entryRight_iff henter]
  exact ⟨fun h => h.1, fun h => ⟨h, fun s' hkept => h.returnRight hkept⟩⟩

/-! ## Traps one after the other -/

/-- Instructions that write none of the registers a return reads. -/
structure CsrKept (s s' : Cpu) : Prop where
  sstatus : s'.csr.sstatus = s.csr.sstatus
  sepc : s'.csr.sepc = s.csr.sepc
  mstatus : s'.csr.mstatus = s.csr.mstatus
  mepc : s'.csr.mepc = s.csr.mepc

/-- Traps one after the other, by the states before them; between two of them a program runs, and in each
of them a handler, without writing the registers of trap handling. -/
inductive TrapRun : Cpu → List Cpu → Cpu → Prop
  | done (s : Cpu) : TrapRun s [] s
  | trap {s s1 s2 s' : Cpu} {l : List Cpu} (hprogram : CsrKept s s1) (hmode : s1.privMode = s.privMode)
      (hvector : s1.HasVector) (hhandler : CsrKept s1.trapEnter s2)
      (hrest : TrapRun (s1.level.ret s2) l s') : TrapRun s (s1 :: l) s'

theorem CsrKept.kept {s s' : Cpu} (h : CsrKept s s') (t : Cpu) : t.level.Kept s s' := by
  unfold Cpu.level
  split_ifs
  · exact ⟨h.sstatus, h.sepc⟩
  · exact ⟨h.mstatus, h.mepc⟩

theorem level_eq (s : Cpu) : s.level = .supervisor ∨ s.level = .machine := by
  unfold Cpu.level
  split_ifs
  · exact .inl rfl
  · exact .inr rfl

theorem level_ret_mode (s s' : Cpu) : (s.level.ret s').privMode.toNat ≤ 3 := by
  have hand (x m : Word) : (x &&& m).toNat ≤ m.toNat := by
    rw [BitVec.toNat_and]
    exact Nat.and_le_right
  rw [(level_ret s s').1, Level.ppField]
  rcases level_eq s with h | h <;> rw [h]
  · have := hand s'.csr.sstatus 0x100
    change ((s'.csr.sstatus &&& 0x100) >>> 8).toNat ≤ 3
    rw [BitVec.toNat_ushiftRight, Nat.shiftRight_eq_div_pow]
    simp only [BitVec.reduceToNat] at this
    omega
  · have := hand s'.csr.mstatus 0x1800
    change ((s'.csr.mstatus &&& 0x1800) >>> 11).toNat ≤ 3
    rw [BitVec.toNat_ushiftRight, Nat.shiftRight_eq_div_pow]
    simp only [BitVec.reduceToNat] at this
    omega

/-- Mode and interrupt enables are those of another state. -/
structure SameContext (s s' : Cpu) : Prop where
  mode : s'.privMode = s.privMode
  sie : Level.supervisor.ieBit s' = Level.supervisor.ieBit s
  mie : Level.machine.ieBit s' = Level.machine.ieBit s

/-- The entry and the return of one level leave the status register of the other alone. -/
theorem ReturnRight.sameContext {s s2 : Cpu} (h : ReturnRight s.level s (s.level.ret s2))
    (hkept : CsrKept s.trapEnter s2) : SameContext s (s.level.ret s2) := by
  cases hlevel : s.isUOrSMode with
  | true =>
    have hl : s.level = .supervisor := by rw [Cpu.level, hlevel, if_pos rfl]
    have hm : s.trapEnter.csr.mstatus = s.csr.mstatus := by
      rw [Cpu.trapEnter, hlevel, if_pos rfl, vectorTo_csr]
      rfl
    rw [hl] at h ⊢
    refine ⟨h.mode, h.ie, ?_⟩
    change s2.csr.mstatus.getLsbD 3 = s.csr.mstatus.getLsbD 3
    rw [hkept.mstatus, hm]
  | false =>
    have hl : s.level = .machine := by rw [Cpu.level, hlevel, if_neg Bool.false_ne_true]
    have hs : s.trapEnter.csr.sstatus = s.csr.sstatus := by
      rw [Cpu.trapEnter, hlevel, if_neg Bool.false_ne_true, vectorTo_csr]
      rfl
    rw [hl] at h ⊢
    refine ⟨h.mode, ?_, h.ie⟩
    change s2.csr.sstatus.getLsbD 1 = s.csr.sstatus.getLsbD 1
    rw [hkept.sstatus, hs]

/-- **Where trap entry and return restore the context, over any sequence of traps.** -/
theorem trapRun_right_iff {s s' : Cpu} {l : List Cpu} (h : TrapRun s l s') (hmode : s.privMode.toNat ≤ 3) :
    ((∀ t ∈ l, TrapRight t) ↔ ∀ t ∈ l, TrapClean t) ∧
      ((∀ t ∈ l, TrapClean t) → SameContext s s') := by
  induction h with
  | done s => exact ⟨by simp, fun _ => ⟨rfl, rfl, rfl⟩⟩
  | @trap s s1 s2 s' l hprogram hsame hvector hhandler hrest ih =>
    have hmode1 : s1.privMode.toNat ≤ 3 := by rwa [hsame]
    obtain ⟨ihiff, ihctx⟩ := ih (level_ret_mode s1 s2)
    have hone := trapRight_iff hmode1
    simp only [List.forall_mem_cons]
    refine ⟨and_congr hone ihiff, fun ⟨hclean, hall⟩ => ?_⟩
    have hret := ((hone.mpr hclean).2 s2 (hhandler.kept s1)).sameContext hhandler
    have hctx := ihctx hall
    refine ⟨hctx.mode.trans (hret.mode.trans hsame), hctx.sie.trans (hret.sie.trans ?_),
      hctx.mie.trans (hret.mie.trans ?_)⟩
    · change s1.csr.sstatus.getLsbD 1 = s.csr.sstatus.getLsbD 1
      rw [hprogram.sstatus]
    · change s1.csr.mstatus.getLsbD 3 = s.csr.mstatus.getLsbD 3
      rw [hprogram.mstatus]

theorem CsrKept.refl (s : Cpu) : CsrKept s s := ⟨rfl, rfl, rfl, rfl⟩

/-- A program in U-mode with interrupts disabled, and a handler at 0x1000. -/
def quietUser : Cpu :=
  let s := Cpu.zero fun _ => 0
  { s with privMode := 0, csr := { s.csr with sstatus := 0, stvec := 0x1000 } }

/-- The first return sets `SPIE`. -/
def quietUserAgain : Cpu := quietUser.level.ret quietUser.trapEnter

theorem quietUser_hasVector : quietUser.HasVector ∧ quietUserAgain.HasVector := by
  unfold Cpu.HasVector
  exact ⟨by decide, by decide⟩

theorem quietUser_clean : TrapClean quietUser where
  pie h := by cases h
  pp := by decide
  vector := .inl (by decide)

theorem trapRun_right_quietUser :
    TrapRun quietUser [quietUser] quietUserAgain ∧ TrapRight quietUser ∧ SameContext quietUser quietUserAgain := by
  have hrun : TrapRun quietUser [quietUser] quietUserAgain :=
    .trap (.refl _) rfl quietUser_hasVector.1 (.refl _) (.done _)
  have hclean : ∀ t ∈ [quietUser], TrapClean t := by
    intro t ht
    rw [List.mem_singleton.mp ht]
    exact quietUser_clean
  obtain ⟨hiff, hctx⟩ := trapRun_right_iff hrun (by decide)
  exact ⟨hrun, hiff.mpr hclean quietUser (List.mem_singleton.mpr rfl), hctx hclean⟩

/-- The second return enables the interrupts that were disabled before both traps. -/
theorem second_trap_enables_interrupts :
    ∃ s', TrapRun quietUser [quietUser, quietUserAgain] s' ∧ Level.supervisor.ieBit quietUser = false ∧
      Level.supervisor.ieBit quietUserAgain = false ∧ Level.supervisor.ieBit s' = true ∧
      ¬ TrapRight quietUserAgain := by
  refine ⟨quietUserAgain.level.ret quietUserAgain.trapEnter, ?_, by decide, by decide, by decide, fun h => ?_⟩
  · exact .trap (.refl _) rfl quietUser_hasVector.1 (.refl _)
      (.trap (.refl _) rfl quietUser_hasVector.2 (.refl _) (.done _))
  · have hpie := h.1.pie
    revert hpie
    decide

end Rv32emu
