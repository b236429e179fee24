import Rv32emu.Sv32
import Rv32emu.SysTemplate
import Rv32emu.StateRel
import Mathlib.Logic.Relation

/-!
# The TLBs against the page tables

A TLB entry is filled from a leaf entry that `MMU_FAULT_CHECK` has let through, and is used without
another check of the privilege mode and of `SUM`.

* `SamePte`, `TablesKept` : two memories whose page tables differ in accessed and dirty bits only;
* `EntryOk`, `Coherent` : a TLB entry says what the walk of its page finds;
* `MmuStep` : what the guest does to the memory system, one operation at a time; `MmuStep.coherent`;
* `HasOutcome`, `Transparent` : an access returns the address, or raises the page fault, that it would
  with both TLBs flushed;
* `Stale` : the TLB hit that the check would refuse.
-/

open StateRel

namespace Rv32emu

/-! ## Page tables up to accessed and dirty bits -/

/-- Two page-table entries that differ in `A` and `D` at most. -/
def SamePte (p q : Word) : Prop := p &&& ~~~(0xc0 : Word) = q &&& ~~~(0xc0 : Word)

namespace SamePte

variable {p q : Word}

theorem bits (h : SamePte p q) (m : Word) (hm : m &&& ~~~(0xc0 : Word) = m) : p &&& m = q &&& m := by
  have hmask : ∀ x : Word, x &&& m = (x &&& ~~~(0xc0 : Word)) &&& m := by
    intro x
    rw [BitVec.and_assoc, BitVec.and_comm (~~~(0xc0 : Word)) m, hm]
  rw [hmask p, hmask q, h]

theorem ushiftRight (h : SamePte p q) : p >>> 10 = q >>> 10 := by
  have hshift : ∀ x : Word, x >>> 10 = (x &&& ~~~(0xc0 : Word)) >>> 10 := by
    intro x
    apply BitVec.eq_of_getLsbD_eq
    intro i _
    rw [BitVec.getLsbD_ushiftRight, BitVec.getLsbD_ushiftRight, BitVec.getLsbD_and, BitVec.getLsbD_not]
    by_cases hi : 10 + i < 32
    · have hbit : (0xc0 : Word).getLsbD (10 + i) = false := by
        have hpow : 2 ^ 10 ≤ 2 ^ (10 + i) := Nat.pow_le_pow_right (by decide) (by omega)
        exact Nat.testBit_lt_two_pow (lt_of_lt_of_le (by decide) hpow)
      rw [hbit, decide_eq_true hi, Bool.not_false, Bool.and_self, Bool.and_true]
    · rw [BitVec.getLsbD_of_ge x (10 + i) (by omega), Bool.false_and]
  rw [hshift p, hshift q, h]

theorem or_left (bits : Word) (hbits : bits &&& ~~~(0xc0 : Word) = 0) : SamePte (p ||| bits) p := by
  unfold SamePte
  rw [BitVec.and_or_distrib_right, hbits]
  simp

end SamePte

theorem walkStep_congr {p q : Word} (h : SamePte p q) (level : Nat) : walkStep level p = walkStep level q := by
  unfold walkStep
  simp only [h.ushiftRight, h.bits 0xf (by decide)]

/-- The page tables of `t` are those of `s`, up to `A` and `D` bits: every walk ends at the same leaf
entry. -/
def TablesKept (env : SysEnv) (s t : Cpu) : Prop :=
  ∀ vaddr, mmuWalk env t vaddr = mmuWalk env s vaddr ∧
    ∀ pteAddr level, mmuWalk env s vaddr = some (pteAddr, level) → SamePte (t.memReadW pteAddr) (s.memReadW pteAddr)

theorem TablesKept.refl (env : SysEnv) (s : Cpu) : TablesKept env s s := fun _ => ⟨rfl, fun _ _ _ => rfl⟩

def Aligned4 (addr : Word) : Prop := (memOff addr).toNat % 4 = 0

theorem aligned4_table {env : SysEnv} {ppn root : Word} (h : pageTable env ppn = some root) (i : Word) :
    Aligned4 (root + ((4 : Nat) : Word) * i) := by
  unfold pageTable at h
  split_ifs at h
  cases h
  unfold Aligned4 memOff
  simp only [BitVec.toNat_setWidth, BitVec.toNat_add, BitVec.toNat_mul, BitVec.toNat_shiftLeft,
    Nat.shiftLeft_eq, show ((4 : Nat) : Word).toNat = 4 from rfl]
  omega

theorem aligned4_walk {env : SysEnv} {s : Cpu} {vaddr pteAddr : Word} {level : Nat}
    (h : mmuWalk env s vaddr = some (pteAddr, level)) : Aligned4 pteAddr := by
  unfold mmuWalk at h
  obtain ⟨root, hroot, h⟩ := Option.bind_eq_some_iff.mp h
  simp only at h
  split at h
  · cases h
    exact aligned4_table hroot _
  · cases h
  · obtain ⟨next, hnext, h⟩ := Option.bind_eq_some_iff.mp h
    split at h
    · cases h
      exact aligned4_table hnext _
    · cases h
    · cases h

theorem mmuWalk_congr {env : SysEnv} {s t : Cpu} (hsatp : t.csr.satp = s.csr.satp)
    (hwords : ∀ a, Aligned4 a → SamePte (t.memReadW a) (s.memReadW a)) (vaddr : Word) :
    mmuWalk env t vaddr = mmuWalk env s vaddr := by
  unfold mmuWalk
  rw [hsatp]
  cases hroot : pageTable env (s.csr.satp &&& 0x3fffff) with
  | none => rfl
  | some root =>
    simp only [Option.bind_eq_bind, Option.bind_some]
    rw [walkStep_congr (hwords _ (aligned4_table hroot _))]
    cases walkStep 1 (s.memReadW (root + ((4 : Nat) : Word) * (vaddr >>> 22 &&& 0x3ff))) with
    | leaf => rfl
    | null => rfl
    | table ppn =>
      cases hnext : pageTable env ppn with
      | none => simp only [hnext, Option.bind_none]
      | some next =>
        simp only [hnext, Option.bind_some]
        rw [walkStep_congr (hwords _ (aligned4_table hnext _))]

theorem tablesKept_of_words {env : SysEnv} {s t : Cpu} (hsatp : t.csr.satp = s.csr.satp)
    (hwords : ∀ a, Aligned4 a → SamePte (t.memReadW a) (s.memReadW a)) : TablesKept env s t :=
  fun vaddr => ⟨mmuWalk_congr hsatp hwords vaddr, fun _ _ hwalk => hwords _ (aligned4_walk hwalk)⟩

/-- `*pte |= bits` on a state. -/
def Cpu.orPte (s : Cpu) (pteAddr bits : Word) : Cpu := s.memWriteW pteAddr (s.memReadW pteAddr ||| bits)

theorem orPte_self (s : Cpu) (pteAddr bits : Word) :
    (s.orPte pteAddr bits).memReadW pteAddr = s.memReadW pteAddr ||| bits := Mem.readW_writeW _ _ _

theorem orPte_of_ne (s : Cpu) {a b : Word} (bits : Word) (ha : Aligned4 a) (hb : Aligned4 b) (h : b ≠ a) :
    (s.orPte a bits).memReadW b = s.memReadW b := by
  have hoff : memOff a ≠ memOff b := fun heq => h (by
    have hnat := congrArg BitVec.toNat heq
    simp only [memOff, BitVec.toNat_setWidth] at hnat
    apply BitVec.eq_of_toNat_eq
    omega)
  exact Mem.readW_writeW_of_ne s.mem _ ha hb hoff

/-- Setting `A` and `D` keeps the page tables. -/
theorem tablesKept_orPte (env : SysEnv) (s : Cpu) {pteAddr bits : Word} (haddr : Aligned4 pteAddr)
    (hbits : bits &&& ~~~(0xc0 : Word) = 0) : TablesKept env s (s.orPte pteAddr bits) := by
  refine tablesKept_of_words rfl fun a ha => ?_
  by_cases h : a = pteAddr
  · rw [h, orPte_self]
    exact SamePte.or_left bits hbits
  · rw [orPte_of_ne s bits haddr ha h]
    rfl

/-! ## Coherence -/

/-- A TLB entry is what the walk of its page finds. -/
def EntryOk (env : SysEnv) (s : Cpu) (e : TlbEntry) : Prop :=
  ∀ vaddr : Word, vaddr >>> 12 = e.vpn → mmuWalk env s vaddr = some (e.pteAddr, e.level) ∧
    e.ppn = ptePpn (s.memReadW e.pteAddr) ∧ e.perm = s.memReadW e.pteAddr &&& 0x1e

def Tlb.Coherent (env : SysEnv) (s : Cpu) (t : Tlb) : Prop := ∀ i, (t i).valid = true → EntryOk env s (t i)

structure Coherent (env : SysEnv) (s : Sys) : Prop where
  dtlb : s.dtlb.Coherent env s.cpu
  itlb : s.itlb.Coherent env s.cpu

theorem EntryOk.kept {env : SysEnv} {s t : Cpu} {e : TlbEntry} (h : EntryOk env s e) (hkept : TablesKept env s t) :
    EntryOk env t e := by
  intro vaddr hvpn
  obtain ⟨hwalk, hppn, hperm⟩ := h vaddr hvpn
  obtain ⟨hwalk', hpte⟩ := hkept vaddr
  have hsame := hpte _ _ hwalk
  refine ⟨hwalk'.trans hwalk, ?_, ?_⟩
  · rw [hppn, ptePpn, ptePpn, hsame.ushiftRight]
  · rw [hperm, hsame.bits 0x1e (by decide)]

theorem Tlb.Coherent.kept {env : SysEnv} {s t : Cpu} {tlb : Tlb} (h : tlb.Coherent env s)
    (hkept : TablesKept env s t) : tlb.Coherent env t := fun i hi => (h i hi).kept hkept

theorem Tlb.coherent_empty (env : SysEnv) (s : Cpu) : Tlb.Coherent env s fun _ => {} :=
  fun _ h => (nomatch h)

theorem mmuWalk_page {env : SysEnv} {s : Cpu} {vaddr vaddr' : Word} (h : vaddr >>> 12 = vaddr' >>> 12) :
    mmuWalk env s vaddr = mmuWalk env s vaddr' := by
  have h22 : vaddr >>> 22 = vaddr' >>> 22 := by
    rw [show (22 : Nat) = 12 + 10 from rfl, BitVec.shiftRight_add, BitVec.shiftRight_add, h]
  unfold mmuWalk
  rw [h, h22]

/-- A filled entry agrees with the page table it was filled from. -/
theorem Tlb.Coherent.populate {env : SysEnv} {s : Cpu} {tlb : Tlb} (h : tlb.Coherent env s)
    {vaddr pteAddr : Word} {level : Nat} (hwalk : mmuWalk env s vaddr = some (pteAddr, level)) :
    (tlb.populate vaddr pteAddr (s.memReadW pteAddr) level).Coherent env s := by
  intro i hi
  unfold Tlb.populate at hi ⊢
  by_cases hidx : i = Tlb.index vaddr
  · rw [hidx, Function.update_self]
    intro vaddr' hvpn
    exact ⟨(mmuWalk_page hvpn).trans hwalk, rfl, rfl⟩
  · rw [Function.update_of_ne hidx] at hi ⊢
    exact h i hi

theorem Tlb.Coherent.flush {env : SysEnv} {s : Cpu} {tlb : Tlb} (h : tlb.Coherent env s) (vaddr : Word) :
    (tlb.flush vaddr).Coherent env s := by
  intro i hi
  unfold Tlb.flush at hi ⊢
  simp only at hi ⊢
  split_ifs at hi ⊢
  · by_cases hidx : i = Tlb.index vaddr
    · rw [hidx, Function.update_self] at hi
      cases hi
    · rw [Function.update_of_ne hidx] at hi ⊢
      exact h i hi
  · exact h i hi

/-- A dirty bit is no part of what an entry says. -/
theorem Tlb.Coherent.setDirty {env : SysEnv} {s : Cpu} {tlb : Tlb} (h : tlb.Coherent env s) {vaddr : Word}
    {access : Access} {e : TlbEntry} (he : tlb.lookup vaddr access = some e) :
    Tlb.Coherent env s (Function.update tlb (Tlb.index vaddr) { e with dirty := true }) := by
  unfold Tlb.lookup at he
  simp only at he
  split_ifs at he with hhit
  cases he
  intro i hi
  by_cases hidx : i = Tlb.index vaddr
  · rw [hidx, Function.update_self]
    exact h (Tlb.index vaddr) hhit.1
  · rw [Function.update_of_ne hidx] at hi ⊢
    exact h i hi

/-! ## The three ways of an access -/

def Sys.hitDtlb (s : Sys) (vaddr : Word) (access : Access) (e : TlbEntry) : Sys :=
  if access = .write ∧ !e.dirty then
    { s with cpu := s.cpu.orPte e.pteAddr Pte.D
             dtlb := Function.update s.dtlb (Tlb.index vaddr) { e with dirty := true } }
  else s

/-- The bits that an access sets in the leaf entry. -/
def Access.usedBits (access : Access) : Word := if access = .write then Pte.A ||| Pte.D else Pte.A

/-- The state after the dTLB has been filled from a leaf entry. -/
def Sys.fillDtlb (s : Sys) (vaddr : Word) (access : Access) (pteAddr : Word) (level : Nat) : Sys :=
  let cpu := s.cpu.orPte pteAddr access.usedBits
  { s with cpu, dtlb := s.dtlb.populate vaddr pteAddr (cpu.memReadW pteAddr) level }

/-- The state after the iTLB has been filled from a leaf entry. -/
def Sys.fillItlb (s : Sys) (vaddr pteAddr : Word) (level : Nat) : Sys :=
  let cpu := s.cpu.orPte pteAddr Pte.A
  { s with cpu, itlb := s.itlb.populate vaddr pteAddr (cpu.memReadW pteAddr) level }

/-- The walk finds an entry that the access may use. -/
def Granted (env : SysEnv) (s : Cpu) (vaddr : Word) (access : Access) (pteAddr : Word) (level : Nat) : Prop :=
  mmuWalk env s vaddr = some (pteAddr, level) ∧ pteFaults s access (s.memReadW pteAddr) = false

section Equations

variable {env : SysEnv} {raise : Raise} {vaddr pteAddr : Word} {access : Access} {level : Nat} {s : Sys}

theorem granted_or (env : SysEnv) (s : Cpu) (vaddr : Word) (access : Access) :
    (∃ pteAddr level, Granted env s vaddr access pteAddr level) ∨
      ∀ pteAddr level, ¬ Granted env s vaddr access pteAddr level := by
  by_cases h : ∃ pteAddr level, Granted env s vaddr access pteAddr level
  · exact .inl h
  · exact .inr fun pteAddr level hg => h ⟨pteAddr, level, hg⟩

theorem mmuFaultCheck_granted (h : Granted env s.cpu vaddr access pteAddr level) :
    mmuFaultCheck raise access (mmuWalk env s.cpu vaddr) vaddr s = some (true, s) := by
  rw [h.1]
  change (if pteFaults s.cpu access (s.cpu.memReadW pteAddr) = true then _ else _ : SysM Bool) s = _
  rw [h.2]
  rfl

theorem mmuFaultCheck_refused (h : ∀ pteAddr level, ¬ Granted env s.cpu vaddr access pteAddr level) :
    mmuFaultCheck raise access (mmuWalk env s.cpu vaddr) vaddr s =
      (raise access.pagefault vaddr s).bind fun r => some (false, r.2) := by
  cases hwalk : mmuWalk env s.cpu vaddr with
  | none => rfl
  | some leaf =>
    obtain ⟨pteAddr, level⟩ := leaf
    have hfault : pteFaults s.cpu access (s.cpu.memReadW pteAddr) = true := by
      by_contra hok
      exact h pteAddr level ⟨hwalk, by simpa using hok⟩
    change (if pteFaults s.cpu access (s.cpu.memReadW pteAddr) = true then _ else _ : SysM Bool) s = _
    rw [hfault]
    rfl

theorem mmuTranslate_bare (h : s.cpu.csr.satp = 0) : mmuTranslate env raise vaddr access s = some (vaddr, s) := by
  change (if s.cpu.csr.satp = 0 then _ else _ : SysM Word) s = _
  rw [if_pos h]
  rfl

theorem dtlbLookup_eq : dtlbLookup vaddr access s =
    (match s.dtlb.lookup vaddr access with
      | none => pure none
      | some entry => do
        if access = .write ∧ !entry.dirty then
          setPteBits entry.pteAddr Pte.D
          modify fun s =>
            { s with dtlb := Function.update s.dtlb (Tlb.index vaddr) { entry with dirty := true } }
        return some (physAddr entry.ppn entry.level vaddr) : SysM (Option Word)) s := rfl

theorem dtlbLookup_hit {e : TlbEntry} (he : s.dtlb.lookup vaddr access = some e) :
    dtlbLookup vaddr access s = some (some (physAddr e.ppn e.level vaddr), s.hitDtlb vaddr access e) := by
  rw [dtlbLookup_eq, he]
  unfold Sys.hitDtlb
  simp only
  split_ifs
  · rfl
  · rfl

theorem dtlbLookup_miss (h : s.dtlb.lookup vaddr access = none) :
    dtlbLookup vaddr access s = some (none, s) := by
  rw [dtlbLookup_eq, h]
  rfl

/-- The end of `mmu_translate`, on the result of the walk. -/
def finishTranslate (vaddr : Word) (access : Access) : Option (Word × Nat) → SysM Word
  | none => return 0
  | some (pteAddr, level) => do
    setPteBits pteAddr access.usedBits
    let pte := (← get).cpu.memReadW pteAddr
    modify fun s => { s with dtlb := s.dtlb.populate vaddr pteAddr pte level }
    return physAddr (ptePpn pte) level vaddr

/-- The second attempt of `mmu_translate`, after its page fault has been handled. -/
def walkAgain (env : SysEnv) (raise : Raise) (vaddr : Word) (access : Access) : SysM (Option (Word × Nat)) := do
  if ← checkPendingSignal env then return none
  else
    let walk := mmuWalk env (← get).cpu vaddr
    if ← mmuFaultCheck raise access walk vaddr then return walk
    else
      modify fun s =>
        { s with needRetranslate := s.needRetranslate || env.elfLoader, needHandleSignal := true }
      return none

/-- `mmu_translate` after a miss of the dTLB. -/
def translateMiss (env : SysEnv) (raise : Raise) (vaddr : Word) (access : Access) : SysM Word :=
  translateWalk env raise vaddr access >>= finishTranslate vaddr access

theorem mmuTranslate_eq : mmuTranslate env raise vaddr access s =
    (if s.cpu.csr.satp = 0 then pure vaddr else do
      match ← dtlbLookup vaddr access with
      | some paddr => return paddr
      | none => translateMiss env raise vaddr access : SysM Word) s := rfl

theorem mmuTranslate_hit (hsatp : s.cpu.csr.satp ≠ 0) {e : TlbEntry}
    (he : s.dtlb.lookup vaddr access = some e) :
    mmuTranslate env raise vaddr access s =
      some (physAddr e.ppn e.level vaddr, s.hitDtlb vaddr access e) := by
  rw [mmuTranslate_eq, if_neg hsatp]
  change (dtlbLookup vaddr access s).bind _ = _
  rw [dtlbLookup_hit he]
  rfl

theorem mmuTranslate_miss (hsatp : s.cpu.csr.satp ≠ 0) (hmiss : s.dtlb.lookup vaddr access = none) :
    mmuTranslate env raise vaddr access s = translateMiss env raise vaddr access s := by
  rw [mmuTranslate_eq, if_neg hsatp]
  change (dtlbLookup vaddr access s).bind _ = _
  rw [dtlbLookup_miss hmiss]
  rfl

theorem translateMiss_run :
    translateMiss env raise vaddr access s =
      (mmuFaultCheck raise access (mmuWalk env s.cpu vaddr) vaddr s).bind fun r =>
        ((if r.1 then pure (mmuWalk env s.cpu vaddr) else walkAgain env raise vaddr access) >>=
          finishTranslate vaddr access : SysM Word) r.2 := by
  change ((mmuFaultCheck raise access (mmuWalk env s.cpu vaddr) vaddr s).bind _).bind _ = _
  rw [Option.bind_assoc]
  refine congrArg _ (funext fun r => ?_)
  obtain ⟨ok, t⟩ := r
  cases ok
  · rfl
  · rfl

theorem translateMiss_granted (h : Granted env s.cpu vaddr access pteAddr level) :
    translateMiss env raise vaddr access s =
      some (physAddr (ptePpn (s.cpu.memReadW pteAddr ||| access.usedBits)) level vaddr,
        s.fillDtlb vaddr access pteAddr level) := by
  rw [translateMiss_run, mmuFaultCheck_granted h, h.1, ← orPte_self]
  rfl

/-- There is no leaf entry, or it refuses the access. -/
theorem translateMiss_refused (h : ∀ pteAddr level, ¬ Granted env s.cpu vaddr access pteAddr level) :
    translateMiss env raise vaddr access s = (raise access.pagefault vaddr s).bind fun r =>
      (walkAgain env raise vaddr access >>= finishTranslate vaddr access : SysM Word) r.2 := by
  rw [translateMiss_run, mmuFaultCheck_refused h, Option.bind_assoc]
  rfl

/-- The end of `mmu_ifetch`, on the result of the walk. -/
def finishIfetch (vaddr : Word) : Option (Word × Nat) → SysM Word
  | none => return 0
  | some (pteAddr, level) => do
    setPteBits pteAddr Pte.A
    let pte := (← get).cpu.memReadW pteAddr
    modify fun s => { s with itlb := s.itlb.populate vaddr pteAddr pte level }
    return (← get).cpu.ifetch (physAddr (ptePpn pte) level vaddr)

/-- The second attempt of `mmu_ifetch`. -/
def ifetchAgain (env : SysEnv) (raise : Raise) (vaddr : Word) : SysM (Option (Word × Nat)) := do
  if ← checkPendingSignal env then return none
  else
    let walk := mmuWalk env (← get).cpu vaddr
    if ← ifetchRecheck raise walk vaddr then return walk
    else
      modify fun s => { s with needRetranslate := true, needHandleSignal := true }
      return none

/-- `mmu_ifetch` after a miss of the iTLB. -/
def ifetchMiss (env : SysEnv) (raise : Raise) (vaddr : Word) : SysM Word :=
  ifetchWalk env raise vaddr >>= finishIfetch vaddr

theorem mmuIfetch_bare (h : s.cpu.csr.satp = 0) : mmuIfetch env raise vaddr s = some (s.cpu.ifetch vaddr, s) := by
  change (if s.cpu.csr.satp = 0 then _ else _ : SysM Word) s = _
  rw [if_pos h]
  rfl

/-- While a block has to be translated again nothing is fetched. -/
theorem mmuIfetch_retranslate (hsatp : s.cpu.csr.satp ≠ 0) (h : s.needRetranslate = true) :
    mmuIfetch env raise vaddr s = some (0, s) := by
  change (if s.cpu.csr.satp = 0 then _ else if s.needRetranslate = true then _ else _ : SysM Word) s = _
  rw [if_neg hsatp, if_pos h]
  rfl

theorem mmuIfetch_paged (hsatp : s.cpu.csr.satp ≠ 0) (h : s.needRetranslate = false) :
    mmuIfetch env raise vaddr s =
      ((match (s.itlb.lookup vaddr .fetch).map fun e => physAddr e.ppn e.level vaddr with
        | some paddr => do return (← get).cpu.ifetch paddr
        | none => ifetchMiss env raise vaddr) : SysM Word) s := by
  have hrun : mmuIfetch env raise vaddr s =
      (if s.cpu.csr.satp = 0 then pure (s.cpu.ifetch vaddr)
        else if s.needRetranslate = true then pure 0
        else match (s.itlb.lookup vaddr .fetch).map fun e => physAddr e.ppn e.level vaddr with
          | some paddr => do return (← get).cpu.ifetch paddr
          | none => ifetchMiss env raise vaddr : SysM Word) s := by
    change (if s.cpu.csr.satp = 0 then _ else if s.needRetranslate = true then _ else _ : SysM Word) s = _
    split_ifs
    · rfl
    · rfl
    · cases hlook : (s.itlb.lookup vaddr .fetch).map fun e => physAddr e.ppn e.level vaddr with
      | none =>
        have hitlb : itlbLookup vaddr s = some (none, s) := by
          rw [← hlook]
          rfl
        simp only [bind, StateT.bind, hitlb, Option.bind_some]
        rfl
      | some paddr =>
        have hitlb : itlbLookup vaddr s = some (some paddr, s) := by
          rw [← hlook]
          rfl
        simp only [bind, StateT.bind, hitlb, Option.bind_some]
  rw [hrun, if_neg hsatp, h, if_neg Bool.false_ne_true]

theorem ifetchMiss_run :
    ifetchMiss env raise vaddr s =
      (mmuFaultCheck raise .fetch (mmuWalk env s.cpu vaddr) vaddr s).bind fun r =>
        ((if r.1 then pure (mmuWalk env s.cpu vaddr) else ifetchAgain env raise vaddr) >>=
          finishIfetch vaddr : SysM Word) r.2 := by
  change ((mmuFaultCheck raise .fetch (mmuWalk env s.cpu vaddr) vaddr s).bind _).bind _ = _
  rw [Option.bind_assoc]
  refine congrArg _ (funext fun r => ?_)
  obtain ⟨ok, t⟩ := r
  cases ok
  · rfl
  · rfl

theorem ifetchMiss_granted (h : Granted env s.cpu vaddr .fetch pteAddr level) :
    ifetchMiss env raise vaddr s =
      some ((s.fillItlb vaddr pteAddr level).cpu.ifetch
          (physAddr (ptePpn (s.cpu.memReadW pteAddr ||| Pte.A)) level vaddr),
        s.fillItlb vaddr pteAddr level) := by
  rw [ifetchMiss_run, mmuFaultCheck_granted h, h.1, ← orPte_self]
  rfl

theorem ifetchMiss_refused (h : ∀ pteAddr level, ¬ Granted env s.cpu vaddr .fetch pteAddr level) :
    ifetchMiss env raise vaddr s = (raise .pagefaultInsn vaddr s).bind fun r =>
      (ifetchAgain env raise vaddr >>= finishIfetch vaddr : SysM Word) r.2 := by
  rw [ifetchMiss_run, mmuFaultCheck_refused h, Option.bind_assoc]
  rfl

end Equations

/-! ## What the guest does -/

/-- One operation on the memory system. A page fault runs the guest's handler, whose operations come
next, and then the walk is made again. -/
inductive MmuStep (env : SysEnv) : Sys → Sys → Prop
  /-- A load or store that raises no fault. -/
  | translate {s s' : Sys} {vaddr paddr : Word} {access : Access}
      (h : ∀ raise, mmuTranslate env raise vaddr access s = some (paddr, s')) : MmuStep env s s'
  /-- A fetch that raises no fault. -/
  | ifetch {s s' : Sys} {vaddr insn : Word} (h : ∀ raise, mmuIfetch env raise vaddr s = some (insn, s')) :
      MmuStep env s s'
  /-- The second walk of a load or store finds an entry. -/
  | retry {s : Sys} {vaddr pteAddr : Word} {access : Access} {level : Nat}
      (h : Granted env s.cpu vaddr access pteAddr level) : MmuStep env s (s.fillDtlb vaddr access pteAddr level)
  /-- The second walk of a fetch finds an entry. -/
  | refetch {s : Sys} {vaddr pteAddr : Word} {level : Nat}
      (h : Granted env s.cpu vaddr .fetch pteAddr level) : MmuStep env s (s.fillItlb vaddr pteAddr level)
  /-- The privilege mode, `sstatus`, any register, flag or memory cell changes; the page tables are
  kept up to accessed and dirty bits. -/
  | context {s s' : Sys} (hdtlb : s'.dtlb = s.dtlb) (hitlb : s'.itlb = s.itlb)
      (hkept : TablesKept env s.cpu s'.cpu) : MmuStep env s s'
  /-- A CSR instruction writes `satp`. -/
  | satp {s : Sys} (ir : Insn) (hcsr : csrGetPtr ir.imm = some .satp) (v : Word) :
      MmuStep env s
        (csrSideEffects ir s.cpu.csr.satp { s with cpu := { s.cpu with csr := { s.cpu.csr with satp := v } } })
  /-- `SFENCE.VMA`. -/
  | sfence {s : Sys} (ir : Insn) :
      MmuStep env s (if ir.rs1 = 0 then s.tlbFlushAll else s.tlbFlush (s.cpu.X ir.rs1))
  /-- The page tables are changed, and `SFENCE.VMA` with `rs1 = x0` follows. -/
  | remap {s : Sys} (cpu : Cpu) : MmuStep env s { s with cpu }.tlbFlushAll

section Coherence

variable {env : SysEnv} {s s' : Sys}

theorem Coherent.hitDtlb (h : Coherent env s) {vaddr : Word} {access : Access} {e : TlbEntry}
    (he : s.dtlb.lookup vaddr access = some e) : Coherent env (s.hitDtlb vaddr access e) := by
  unfold Sys.hitDtlb
  split_ifs
  · have hentry : EntryOk env s.cpu e := by
      have hlook := he
      unfold Tlb.lookup at hlook
      simp only at hlook
      split_ifs at hlook with hhit
      cases hlook
      exact h.dtlb _ hhit.1
    have hkept : TablesKept env s.cpu (s.cpu.orPte e.pteAddr Pte.D) := by
      have hvpn : vaddr >>> 12 = e.vpn := by
        unfold Tlb.lookup at he
        simp only at he
        split_ifs at he with hhit
        cases he
        exact hhit.2.1.symm
      exact tablesKept_orPte env s.cpu (aligned4_walk (hentry vaddr hvpn).1) (by decide)
    exact ⟨(h.dtlb.setDirty he).kept hkept, h.itlb.kept hkept⟩
  · exact h

theorem Coherent.fillDtlb (h : Coherent env s) {vaddr pteAddr : Word} {access : Access} {level : Nat}
    (hg : Granted env s.cpu vaddr access pteAddr level) : Coherent env (s.fillDtlb vaddr access pteAddr level) := by
  have hbits : access.usedBits &&& ~~~(0xc0 : Word) = 0 := by
    cases access <;> decide
  have hkept := tablesKept_orPte env s.cpu (aligned4_walk hg.1) hbits
  exact ⟨(h.dtlb.kept hkept).populate ((hkept vaddr).1.trans hg.1), h.itlb.kept hkept⟩

theorem Coherent.fillItlb (h : Coherent env s) {vaddr pteAddr : Word} {level : Nat}
    (hg : Granted env s.cpu vaddr .fetch pteAddr level) : Coherent env (s.fillItlb vaddr pteAddr level) := by
  have hbits : Pte.A &&& ~~~(0xc0 : Word) = 0 := by decide
  have hkept := tablesKept_orPte env s.cpu (aligned4_walk hg.1) hbits
  exact ⟨h.dtlb.kept hkept, (h.itlb.kept hkept).populate ((hkept vaddr).1.trans hg.1)⟩

theorem coherent_flushed (env : SysEnv) (s : Sys) : Coherent env s.tlbFlushAll :=
  ⟨Tlb.coherent_empty env _, Tlb.coherent_empty env _⟩

/-- A write to `satp` flushes the TLBs unless it writes the old value. -/
theorem coherent_csrSideEffects {ir : Insn} (hcsr : csrGetPtr ir.imm = some .satp) {old : Word} {t : Sys}
    (h : t.cpu.csr.satp = old → Coherent env t) : Coherent env (csrSideEffects ir old t) := by
  have hwrite : Coherent env (if t.cpu.csr.satp ≠ old then t.tlbFlushAll else t) := by
    split_ifs with hne
    · exact coherent_flushed env t
    · exact h (not_not.mp hne)
  unfold csrSideEffects
  rw [if_pos hcsr]
  simp only
  by_cases hop : ir.opcode = .csrrw ∨ ir.opcode = .csrrwi
  · rw [if_pos hop]
    exact ⟨hwrite.dtlb, hwrite.itlb⟩
  · rw [if_neg hop]
    exact hwrite

def raiseNone : Raise := fun _ _ => failure

/-- What a load or store that raises no fault does. -/
theorem translate_cases {vaddr paddr : Word} {access : Access}
    (hrun : ∀ raise, mmuTranslate env raise vaddr access s = some (paddr, s')) :
    s' = s ∨ (∃ e, s.dtlb.lookup vaddr access = some e ∧ s' = s.hitDtlb vaddr access e) ∨
      ∃ pteAddr level, Granted env s.cpu vaddr access pteAddr level ∧ s' = s.fillDtlb vaddr access pteAddr level := by
  have hrun := hrun raiseNone
  by_cases hsatp : s.cpu.csr.satp = 0
  · rw [mmuTranslate_bare hsatp] at hrun
    cases hrun
    exact .inl rfl
  · cases hlook : s.dtlb.lookup vaddr access with
    | some e =>
      rw [mmuTranslate_hit hsatp hlook] at hrun
      cases hrun
      exact .inr (.inl ⟨e, rfl, rfl⟩)
    | none =>
      rw [mmuTranslate_miss hsatp hlook] at hrun
      obtain ⟨pteAddr, level, hg⟩ | hno := granted_or env s.cpu vaddr access
      · rw [translateMiss_granted hg] at hrun
        cases hrun
        exact .inr (.inr ⟨pteAddr, level, hg, rfl⟩)
      · rw [translateMiss_refused hno] at hrun
        cases hrun

theorem ifetch_cases {vaddr insn : Word} (hrun : ∀ raise, mmuIfetch env raise vaddr s = some (insn, s')) :
    s' = s ∨ ∃ pteAddr level, Granted env s.cpu vaddr .fetch pteAddr level ∧ s' = s.fillItlb vaddr pteAddr level := by
  have hrun := hrun raiseNone
  by_cases hsatp : s.cpu.csr.satp = 0
  · rw [mmuIfetch_bare hsatp] at hrun
    cases hrun
    exact .inl rfl
  · cases hretry : s.needRetranslate with
    | true =>
      rw [mmuIfetch_retranslate hsatp hretry] at hrun
      cases hrun
      exact .inl rfl
    | false =>
      rw [mmuIfetch_paged hsatp hretry] at hrun
      cases hlook : s.itlb.lookup vaddr .fetch with
      | some e =>
        rw [hlook] at hrun
        cases hrun
        exact .inl rfl
      | none =>
        rw [hlook] at hrun
        change ifetchMiss env raiseNone vaddr s = _ at hrun
        obtain ⟨pteAddr, level, hg⟩ | hno := granted_or env s.cpu vaddr .fetch
        · rw [ifetchMiss_granted hg] at hrun
          cases hrun
          exact .inr ⟨pteAddr, level, hg, rfl⟩
        · rw [ifetchMiss_refused hno] at hrun
          cases hrun

/-- **Every operation keeps the TLBs coherent.** -/
theorem MmuStep.coherent (hstep : MmuStep env s s') (h : Coherent env s) : Coherent env s' := by
  cases hstep with
  | translate hrun =>
    obtain rfl | ⟨e, hlook, rfl⟩ | ⟨pteAddr, level, hg, rfl⟩ := translate_cases hrun
    · exact h
    · exact h.hitDtlb hlook
    · exact h.fillDtlb hg
  | ifetch hrun =>
    obtain rfl | ⟨pteAddr, level, hg, rfl⟩ := ifetch_cases hrun
    · exact h
    · exact h.fillItlb hg
  | retry hg => exact h.fillDtlb hg
  | refetch hg => exact h.fillItlb hg
  | context hdtlb hitlb hkept => exact ⟨by rw [hdtlb]; exact h.dtlb.kept hkept, by rw [hitlb]; exact h.itlb.kept hkept⟩
  | satp ir hcsr v =>
    refine coherent_csrSideEffects hcsr fun hsame => ?_
    obtain rfl : v = s.cpu.csr.satp := hsame
    exact h
  | sfence ir =>
    split_ifs
    · exact coherent_flushed env s
    · exact ⟨h.dtlb.flush _, h.itlb.flush _⟩
  | remap cpu => exact coherent_flushed env _

def MmuReach (env : SysEnv) : Sys → Sys → Prop := Relation.ReflTransGen (MmuStep env)

theorem MmuReach.coherent (hrun : MmuReach env s s') (h : Coherent env s) : Coherent env s' := by
  induction hrun with
  | refl => exact h
  | tail _ hstep ih => exact hstep.coherent ih

end Coherence

/-! ## Outcomes -/

/-- How an access ends, or what it raises first. -/
inductive AccessOutcome
  | address (paddr : Word)
  | pageFault (cause : SysCause) (tval : Word)
  /-- `mmu_ifetch` while a block has to be translated again. -/
  | nothing

/-- What an access does whatever its traps do. `view` is what it returns for a physical address. -/
def HasOutcome (m : Raise → SysM Word) (view : Sys → Word → Word) (s : Sys) : AccessOutcome → Prop
  | .address paddr => ∃ s', ∀ raise, m raise s = some (view s' paddr, s')
  | .pageFault cause tval =>
    ∃ s', ∃ after : Raise → Unit × Sys → Option (Word × Sys),
      ∀ raise, m raise s = (raise cause tval s').bind (after raise)
  | .nothing => ∃ s', ∀ raise, m raise s = some (0, s')

/-- The access has the outcome that it has with both TLBs flushed. -/
def Transparent (m : Raise → SysM Word) (view : Sys → Word → Word) (s : Sys) : Prop :=
  ∃ o, HasOutcome m view s o ∧ HasOutcome m view s.tlbFlushAll o

/-- `mmu_translate` at `vaddr`. -/
def TranslateTransparent (env : SysEnv) (s : Sys) (vaddr : Word) (access : Access) : Prop :=
  Transparent (fun raise => mmuTranslate env raise vaddr access) (fun _ paddr => paddr) s

/-- `mmu_ifetch` at `vaddr`, which returns the word at the address it comes to. -/
def IfetchTransparent (env : SysEnv) (s : Sys) (vaddr : Word) : Prop :=
  Transparent (fun raise => mmuIfetch env raise vaddr) (fun t paddr => t.cpu.ifetch paddr) s

/-- The TLB holds a page of the user for this access, S-mode makes it and `SUM` is off. -/
def Stale (s : Cpu) (t : Tlb) (vaddr : Word) (access : Access) : Prop :=
  s.csr.satp ≠ 0 ∧ s.privMode = 1 ∧ ¬ s.sum ∧ ∃ e, t.lookup vaddr access = some e ∧ Pte.Has e.perm Pte.U

section Outcomes

variable {env : SysEnv} {s : Sys} {vaddr : Word} {access : Access}

/-- A run that returns whatever its traps do raises none, and one that begins with a trap does not
return. -/
theorem not_transparent {m : Raise → SysM Word} {view : Sys → Word → Word} {r : Word × Sys}
    (hhit : m raiseNone s = some r) (hfault : m raiseNone s.tlbFlushAll = none) : ¬ Transparent m view s := by
  rintro ⟨o, h, h'⟩
  cases o with
  | address paddr =>
    obtain ⟨s', h'⟩ := h'
    have heq := hfault.symm.trans (h' raiseNone)
    cases heq
  | pageFault cause tval =>
    obtain ⟨s', after, h⟩ := h
    have heq := hhit.symm.trans (h raiseNone)
    cases heq
  | nothing =>
    obtain ⟨s', h'⟩ := h'
    have heq := hfault.symm.trans (h' raiseNone)
    cases heq

theorem lookup_some {t : Tlb} {e : TlbEntry} (h : t.lookup vaddr access = some e) :
    e = t (Tlb.index vaddr) ∧ e.valid = true ∧ vaddr >>> 12 = e.vpn ∧ e.perm &&& access.bit ≠ 0 := by
  unfold Tlb.lookup at h
  simp only at h
  split_ifs at h with hhit
  cases h
  exact ⟨rfl, hhit.1, hhit.2.1.symm, hhit.2.2⟩

theorem walkStep_leaf {level : Nat} {pte : Word} (h : walkStep level pte = .leaf) : Pte.Has pte Pte.V := by
  intro hv
  have hbit : (pte &&& 0xf) &&& 0x1 = 0 := by
    rw [BitVec.and_assoc]
    exact hv
  have hnat : (pte &&& 0xf).toNat % 2 = 0 := by
    have := congrArg BitVec.toNat hbit
    rw [BitVec.toNat_and] at this
    simpa [Nat.and_one_is_mod] using this
  unfold walkStep at h
  simp only at h
  split at h
  · cases h
  all_goals first
    | omega
    | cases h

theorem mmuWalk_valid {s : Cpu} {pteAddr : Word} {level : Nat} (h : mmuWalk env s vaddr = some (pteAddr, level)) :
    Pte.Has (s.memReadW pteAddr) Pte.V := by
  unfold mmuWalk at h
  obtain ⟨root, hroot, h⟩ := Option.bind_eq_some_iff.mp h
  simp only at h
  split at h
  · rename_i hleaf
    cases h
    exact walkStep_leaf hleaf
  · cases h
  · obtain ⟨next, hnext, h⟩ := Option.bind_eq_some_iff.mp h
    split at h
    · rename_i hleaf
      cases h
      exact walkStep_leaf hleaf
    · cases h
    · cases h

/-- **A hit is what the walk would grant, but for the check of `SUM`.** -/
theorem EntryOk.granted_iff {t : Tlb} {e : TlbEntry} (hok : EntryOk env s.cpu e)
    (hlook : t.lookup vaddr access = some e) :
    Granted env s.cpu vaddr access e.pteAddr e.level ↔
      ¬ (s.cpu.privMode = 1 ∧ ¬ s.cpu.sum ∧ Pte.Has e.perm Pte.U) := by
  obtain ⟨-, -, hvpn, hbit⟩ := lookup_some hlook
  obtain ⟨hwalk, -, hperm⟩ := hok vaddr hvpn
  have hmask : ∀ m : Word, 0x1e &&& m = m → e.perm &&& m = s.cpu.memReadW e.pteAddr &&& m := by
    intro m hm
    rw [hperm, BitVec.and_assoc, hm]
  have haccess : Pte.Has (s.cpu.memReadW e.pteAddr) access.bit := by
    unfold Pte.Has
    rw [← hmask access.bit (by cases access <;> decide)]
    exact hbit
  have huser : Pte.Has e.perm Pte.U ↔ Pte.Has (s.cpu.memReadW e.pteAddr) Pte.U := by
    unfold Pte.Has
    rw [hmask Pte.U (by decide)]
  unfold Granted
  rw [pteFaults_iff, huser]
  constructor
  · rintro ⟨-, -, -, hsum⟩ ⟨hmode, hno, hu⟩
    exact hno (hsum hmode hu)
  · intro h
    refine ⟨hwalk, mmuWalk_valid hwalk, haccess, fun hmode hu => ?_⟩
    by_contra hno
    exact h ⟨hmode, hno, hu⟩

theorem EntryOk.physAddr_eq {t : Tlb} {e : TlbEntry} (hok : EntryOk env s.cpu e)
    (hlook : t.lookup vaddr access = some e) (bits : Word) (hbits : bits &&& ~~~(0xc0 : Word) = 0) :
    physAddr (ptePpn (s.cpu.memReadW e.pteAddr ||| bits)) e.level vaddr = physAddr e.ppn e.level vaddr := by
  obtain ⟨-, -, hvpn, -⟩ := lookup_some hlook
  obtain ⟨-, hppn, -⟩ := hok vaddr hvpn
  rw [hppn, ptePpn, ptePpn, (SamePte.or_left bits hbits).ushiftRight]

theorem lookup_empty : Tlb.lookup (fun _ => {}) vaddr access = none := by
  unfold Tlb.lookup
  simp

theorem mmuTranslate_flushed {raise : Raise} (hsatp : s.cpu.csr.satp ≠ 0) :
    mmuTranslate env raise vaddr access s.tlbFlushAll = translateMiss env raise vaddr access s.tlbFlushAll :=
  mmuTranslate_miss hsatp lookup_empty

theorem mmuIfetch_flushed {raise : Raise} (hsatp : s.cpu.csr.satp ≠ 0) (hretry : s.needRetranslate = false) :
    mmuIfetch env raise vaddr s.tlbFlushAll = ifetchMiss env raise vaddr s.tlbFlushAll := by
  have hmiss : s.tlbFlushAll.itlb.lookup vaddr .fetch = none := lookup_empty
  rw [mmuIfetch_paged (s := s.tlbFlushAll) hsatp hretry, hmiss]
  rfl

/-- A hit is stale by the mode, `SUM` and the user bit. -/
theorem stale_iff_of_lookup {t : Tlb} {e : TlbEntry} (hsatp : s.cpu.csr.satp ≠ 0)
    (hlook : t.lookup vaddr access = some e) :
    Stale s.cpu t vaddr access ↔ s.cpu.privMode = 1 ∧ ¬ s.cpu.sum ∧ Pte.Has e.perm Pte.U := by
  constructor
  · rintro ⟨-, hmode, hsum, e', he', huser⟩
    rw [hlook] at he'
    cases he'
    exact ⟨hmode, hsum, huser⟩
  · rintro ⟨hmode, hsum, huser⟩
    exact ⟨hsatp, hmode, hsum, e, hlook, huser⟩

theorem not_stale_of_lookup {t : Tlb} (hlook : t.lookup vaddr access = none) : ¬ Stale s.cpu t vaddr access := by
  rintro ⟨-, -, -, e, he, -⟩
  rw [hlook] at he
  cases he

/-- A walk that refuses its leaf entry refuses the access. -/
theorem EntryOk.refused {t : Tlb} {e : TlbEntry} (hok : EntryOk env s.cpu e)
    (hlook : t.lookup vaddr access = some e) (hno : ¬ Granted env s.cpu vaddr access e.pteAddr e.level)
    (pteAddr : Word) (level : Nat) : ¬ Granted env s.cpu vaddr access pteAddr level := by
  intro hg
  have hwalk := (hok vaddr (lookup_some hlook).2.2.1).1
  have heq := hg.1.symm.trans hwalk
  cases heq
  exact hno hg

/-- A walk that grants the access gives it an address, with the TLBs flushed too. -/
theorem translate_flushed_granted {pteAddr : Word} {level : Nat} (hsatp : s.cpu.csr.satp ≠ 0)
    (hg : Granted env s.cpu vaddr access pteAddr level) :
    HasOutcome (fun raise => mmuTranslate env raise vaddr access) (fun _ paddr => paddr) s.tlbFlushAll
      (.address (physAddr (ptePpn (s.cpu.memReadW pteAddr ||| access.usedBits)) level vaddr)) := by
  refine ⟨s.tlbFlushAll.fillDtlb vaddr access pteAddr level, fun raise => ?_⟩
  exact (mmuTranslate_flushed hsatp).trans (translateMiss_granted hg)

theorem ifetch_flushed_granted {pteAddr : Word} {level : Nat} (hsatp : s.cpu.csr.satp ≠ 0)
    (hretry : s.needRetranslate = false) (hg : Granted env s.cpu vaddr .fetch pteAddr level) :
    HasOutcome (fun raise => mmuIfetch env raise vaddr) (fun t paddr => t.cpu.ifetch paddr) s.tlbFlushAll
      (.address (physAddr (ptePpn (s.cpu.memReadW pteAddr ||| Pte.A)) level vaddr)) := by
  refine ⟨s.tlbFlushAll.fillItlb vaddr pteAddr level, fun raise => ?_⟩
  exact (mmuIfetch_flushed hsatp hretry).trans (ifetchMiss_granted hg)

/-- **A load or store is what it would be with the TLBs flushed, but for stale hits.** -/
theorem Coherent.translateTransparent_iff (h : Coherent env s) :
    TranslateTransparent env s vaddr access ↔ ¬ Stale s.cpu s.dtlb vaddr access := by
  by_cases hsatp : s.cpu.csr.satp = 0
  · have hbare : TranslateTransparent env s vaddr access :=
      ⟨.address vaddr, ⟨s, fun _ => mmuTranslate_bare hsatp⟩,
        ⟨s.tlbFlushAll, fun _ => mmuTranslate_bare (s := s.tlbFlushAll) hsatp⟩⟩
    exact ⟨fun _ hstale => hstale.1 hsatp, fun _ => hbare⟩
  cases hlook : s.dtlb.lookup vaddr access with
  | some e =>
    have hok : EntryOk env s.cpu e := by
      obtain ⟨rfl, hvalid, -, -⟩ := lookup_some hlook
      exact h.dtlb _ hvalid
    rw [stale_iff_of_lookup hsatp hlook, ← hok.granted_iff hlook]
    constructor
    · intro htrans
      by_contra hno
      have hrefused := hok.refused hlook hno
      -- the flushed access raises its page fault
      have hfault : mmuTranslate env raiseNone vaddr access s.tlbFlushAll = none :=
        (mmuTranslate_flushed hsatp).trans (translateMiss_refused (s := s.tlbFlushAll) hrefused)
      exact not_transparent (mmuTranslate_hit hsatp hlook) hfault htrans
    · intro hg
      refine ⟨_, ?_, translate_flushed_granted hsatp hg⟩
      rw [hok.physAddr_eq hlook access.usedBits (by cases access <;> decide)]
      exact ⟨s.hitDtlb vaddr access e, fun _ => mmuTranslate_hit hsatp hlook⟩
  | none =>
    refine ⟨fun _ => not_stale_of_lookup hlook, fun _ => ?_⟩
    obtain ⟨pteAddr, level, hg⟩ | hno := granted_or env s.cpu vaddr access
    · refine ⟨_, ?_, translate_flushed_granted hsatp hg⟩
      refine ⟨s.fillDtlb vaddr access pteAddr level, fun _ => ?_⟩
      exact (mmuTranslate_miss hsatp hlook).trans (translateMiss_granted hg)
    · let after := fun (raise : Raise) (r : Unit × Sys) =>
        (walkAgain env raise vaddr access >>= finishTranslate vaddr access : SysM Word) r.2
      refine ⟨.pageFault access.pagefault vaddr, ⟨s, after, fun raise => ?_⟩, ⟨s.tlbFlushAll, after, fun raise => ?_⟩⟩
      · exact (mmuTranslate_miss hsatp hlook).trans (translateMiss_refused hno)
      · exact (mmuTranslate_flushed hsatp).trans (translateMiss_refused (s := s.tlbFlushAll) hno)

/-- **A fetch is what it would be with the TLBs flushed, but for stale hits.** -/
theorem Coherent.ifetchTransparent_iff (h : Coherent env s) :
    IfetchTransparent env s vaddr ↔ s.needRetranslate = true ∨ ¬ Stale s.cpu s.itlb vaddr .fetch := by
  by_cases hsatp : s.cpu.csr.satp = 0
  · have hbare : IfetchTransparent env s vaddr :=
      ⟨.address vaddr, ⟨s, fun _ => mmuIfetch_bare hsatp⟩,
        ⟨s.tlbFlushAll, fun _ => mmuIfetch_bare (s := s.tlbFlushAll) hsatp⟩⟩
    exact ⟨fun _ => .inr fun hstale => hstale.1 hsatp, fun _ => hbare⟩
  cases hretry : s.needRetranslate with
  | true =>
    have hnothing : IfetchTransparent env s vaddr :=
      ⟨.nothing, ⟨s, fun _ => mmuIfetch_retranslate hsatp hretry⟩,
        ⟨s.tlbFlushAll, fun _ => mmuIfetch_retranslate (s := s.tlbFlushAll) hsatp hretry⟩⟩
    exact ⟨fun _ => .inl rfl, fun _ => hnothing⟩
  | false =>
    have hdrop : (false = true ∨ ¬ Stale s.cpu s.itlb vaddr .fetch) ↔ ¬ Stale s.cpu s.itlb vaddr .fetch := by
      simp
    rw [hdrop]
    cases hlook : s.itlb.lookup vaddr .fetch with
    | some e =>
      have hhit : ∀ raise, mmuIfetch env raise vaddr s = some (s.cpu.ifetch (physAddr e.ppn e.level vaddr), s) := by
        intro raise
        rw [mmuIfetch_paged hsatp hretry, hlook]
        rfl
      have hok : EntryOk env s.cpu e := by
        obtain ⟨rfl, hvalid, -, -⟩ := lookup_some hlook
        exact h.itlb _ hvalid
      rw [stale_iff_of_lookup hsatp hlook, ← hok.granted_iff hlook]
      constructor
      · intro htrans
        by_contra hno
        have hrefused := hok.refused hlook hno
        have hfault : mmuIfetch env raiseNone vaddr s.tlbFlushAll = none :=
          (mmuIfetch_flushed hsatp hretry).trans (ifetchMiss_refused (s := s.tlbFlushAll) hrefused)
        exact not_transparent (hhit raiseNone) hfault htrans
      · intro hg
        refine ⟨_, ?_, ifetch_flushed_granted hsatp hretry hg⟩
        rw [hok.physAddr_eq hlook Pte.A (by decide)]
        exact ⟨s, hhit⟩
    | none =>
      have hmiss : ∀ raise, mmuIfetch env raise vaddr s = ifetchMiss env raise vaddr s := by
        intro raise
        rw [mmuIfetch_paged hsatp hretry, hlook]
        rfl
      refine ⟨fun _ => not_stale_of_lookup hlook, fun _ => ?_⟩
      obtain ⟨pteAddr, level, hg⟩ | hno := granted_or env s.cpu vaddr .fetch
      · refine ⟨_, ?_, ifetch_flushed_granted hsatp hretry hg⟩
        refine ⟨s.fillItlb vaddr pteAddr level, fun _ => ?_⟩
        exact (hmiss _).trans (ifetchMiss_granted hg)
      · let after := fun (raise : Raise) (r : Unit × Sys) =>
          (ifetchAgain env raise vaddr >>= finishIfetch vaddr : SysM Word) r.2
        refine ⟨.pageFault .pagefaultInsn vaddr, ⟨s, after, fun raise => ?_⟩, ⟨s.tlbFlushAll, after, fun raise => ?_⟩⟩
        · exact (hmiss _).trans (ifetchMiss_refused hno)
        · exact (mmuIfetch_flushed hsatp hretry).trans (ifetchMiss_refused (s := s.tlbFlushAll) hno)

end Outcomes

/-! ## Whole calls

A call of `mmu_translate` or `mmu_ifetch` stays within a relation that covers the parts it is made of, if
the handler of its page faults does.
-/

/-- A preorder that covers what an access does by itself: changes of flags, hits and fills. -/
structure Covers (env : SysEnv) (R : Sys → Sys → Prop) : Prop where
  refl : ∀ s, R s s
  trans : ∀ {s t u}, R s t → R t u → R s u
  flags : ∀ {s s'}, s'.cpu = s.cpu → s'.dtlb = s.dtlb → s'.itlb = s.itlb → R s s'
  hit : ∀ {s vaddr access e}, s.cpu.csr.satp ≠ 0 → s.dtlb.lookup vaddr access = some e →
    R s (s.hitDtlb vaddr access e)
  fill : ∀ {s vaddr access pteAddr level}, Granted env s.cpu vaddr access pteAddr level →
    R s (s.fillDtlb vaddr access pteAddr level)
  refill : ∀ {s vaddr pteAddr level}, Granted env s.cpu vaddr .fetch pteAddr level →
    R s (s.fillItlb vaddr pteAddr level)

theorem checkPendingSignal_run {env : SysEnv} {s s' : Sys} {givenUp : Bool}
    (h : checkPendingSignal env s = some (givenUp, s')) :
    s'.cpu = s.cpu ∧ s'.dtlb = s.dtlb ∧ s'.itlb = s.itlb := by
  change (if env.elfLoader = true then _ else _ : SysM Bool) s = _ at h
  split_ifs at h
  · cases h
    exact ⟨rfl, rfl, rfl⟩
  · cases h
    exact ⟨rfl, rfl, rfl⟩

namespace Covers

variable {env : SysEnv} {R : Sys → Sys → Prop} {raise : Raise}

/-- The second walk gives the access up, or finds an entry in the state it ends in. -/
theorem walkAgain (h : Covers env R) (hraise : ∀ cause tval, Within R (raise cause tval)) {vaddr : Word}
    {access : Access} {walk : Option (Word × Nat)} {s s' : Sys}
    (hrun : Rv32emu.walkAgain env raise vaddr access s = some (walk, s')) :
    R s s' ∧ ∀ pteAddr level, walk = some (pteAddr, level) → Granted env s'.cpu vaddr access pteAddr level := by
  obtain ⟨givenUp, s1, hpending, hagain⟩ := bind_eq_some.mp hrun
  obtain ⟨hcpu, hdtlb, hitlb⟩ := checkPendingSignal_run hpending
  have hflags : R s s1 := h.flags hcpu hdtlb hitlb
  cases givenUp with
  | true =>
    cases hagain
    exact ⟨hflags, fun _ _ hnone => nomatch hnone⟩
  | false =>
    change (mmuFaultCheck raise access (mmuWalk env s1.cpu vaddr) vaddr s1).bind _ = _ at hagain
    obtain ⟨pteAddr, level, hg⟩ | hno := granted_or env s1.cpu vaddr access
    · rw [mmuFaultCheck_granted hg, hg.1] at hagain
      cases hagain
      exact ⟨hflags, fun _ _ hsome => by cases hsome; exact hg⟩
    · rw [mmuFaultCheck_refused hno, Option.bind_assoc] at hagain
      obtain ⟨⟨⟨⟩, s3⟩, htrap, hagain⟩ := Option.bind_eq_some_iff.mp hagain
      cases hagain
      exact ⟨h.trans hflags (h.trans (hraise _ _ _ _ _ htrap) (h.flags rfl rfl rfl)),
        fun _ _ hnone => nomatch hnone⟩

/-- The walk of `mmu_translate` with its second attempt. -/
theorem translateWalk (h : Covers env R) (hraise : ∀ cause tval, Within R (raise cause tval)) {vaddr : Word}
    {access : Access} {walk : Option (Word × Nat)} {s s' : Sys}
    (hrun : Rv32emu.translateWalk env raise vaddr access s = some (walk, s')) :
    R s s' ∧ ∀ pteAddr level, walk = some (pteAddr, level) → Granted env s'.cpu vaddr access pteAddr level := by
  change (mmuFaultCheck raise access (mmuWalk env s.cpu vaddr) vaddr s).bind _ = _ at hrun
  obtain ⟨pteAddr, level, hg⟩ | hno := granted_or env s.cpu vaddr access
  · rw [mmuFaultCheck_granted hg, hg.1] at hrun
    cases hrun
    exact ⟨h.refl s, fun _ _ hsome => by cases hsome; exact hg⟩
  · rw [mmuFaultCheck_refused hno, Option.bind_assoc] at hrun
    obtain ⟨⟨⟨⟩, s1⟩, htrap, hagain⟩ := Option.bind_eq_some_iff.mp hrun
    obtain ⟨hagain, hwalk⟩ := h.walkAgain hraise (s := s1) hagain
    exact ⟨h.trans (hraise _ _ _ _ _ htrap) hagain, hwalk⟩

/-- The end of `mmu_translate`. -/
theorem finishTranslate (h : Covers env R) {vaddr paddr : Word} {access : Access} {walk : Option (Word × Nat)}
    {s s' : Sys} (hwalk : ∀ pteAddr level, walk = some (pteAddr, level) → Granted env s.cpu vaddr access pteAddr level)
    (hrun : Rv32emu.finishTranslate vaddr access walk s = some (paddr, s')) : R s s' := by
  cases walk with
  | none =>
    cases hrun
    exact h.refl s
  | some leaf =>
    obtain ⟨pteAddr, level⟩ := leaf
    cases hrun
    exact h.fill (hwalk pteAddr level rfl)

/-- **A call of `mmu_translate`**, with its page faults and the second walk. -/
theorem mmuTranslate (h : Covers env R) (hraise : ∀ cause tval, Within R (raise cause tval)) (vaddr : Word)
    (access : Access) : Within R (Rv32emu.mmuTranslate env raise vaddr access) := by
  intro s paddr s' hrun
  by_cases hsatp : s.cpu.csr.satp = 0
  · rw [mmuTranslate_bare hsatp] at hrun
    cases hrun
    exact h.refl s
  cases hlook : s.dtlb.lookup vaddr access with
  | some e =>
    rw [mmuTranslate_hit hsatp hlook] at hrun
    cases hrun
    exact h.hit hsatp hlook
  | none =>
    rw [mmuTranslate_miss hsatp hlook] at hrun
    obtain ⟨walk, s1, hwalk, hfinish⟩ := bind_eq_some.mp hrun
    obtain ⟨hR, hleaf⟩ := h.translateWalk hraise hwalk
    exact h.trans hR (h.finishTranslate hleaf hfinish)

theorem ifetchAgain (h : Covers env R) (hraise : ∀ cause tval, Within R (raise cause tval)) (vaddr : Word) :
    Within R (ifetchAgain env raise vaddr >>= finishIfetch vaddr) := by
  intro s insn s' hrun
  obtain ⟨walk, s2, hagain, hfinish⟩ := bind_eq_some.mp hrun
  obtain ⟨givenUp, s1, hpending, hagain⟩ := bind_eq_some.mp hagain
  obtain ⟨hcpu, hdtlb, hitlb⟩ := checkPendingSignal_run hpending
  refine h.trans (h.flags hcpu hdtlb hitlb) ?_
  cases givenUp with
  | true =>
    cases hagain
    cases hfinish
    exact h.refl _
  | false =>
    change (ifetchRecheck raise (mmuWalk env s1.cpu vaddr) vaddr s1).bind _ = _ at hagain
    obtain ⟨pteAddr, level, hg⟩ | hno := granted_or env s1.cpu vaddr .fetch
    · have hcheck : ifetchRecheck raise (mmuWalk env s1.cpu vaddr) vaddr s1 = some (true, s1) := by
        have hwalk : mmuFaultCheck raise .fetch (mmuWalk env s1.cpu vaddr) vaddr s1 = some (true, s1) :=
          mmuFaultCheck_granted hg
        rw [hg.1] at hwalk ⊢
        exact hwalk
      rw [hcheck, hg.1] at hagain
      cases hagain
      cases hfinish
      exact h.refill hg
    · cases hwalk : mmuWalk env s1.cpu vaddr with
      | none =>
        rw [hwalk] at hagain
        cases hagain
        cases hfinish
        exact h.flags rfl rfl rfl
      | some leaf =>
        have hcheck : ifetchRecheck raise (mmuWalk env s1.cpu vaddr) vaddr s1 =
            mmuFaultCheck raise .fetch (mmuWalk env s1.cpu vaddr) vaddr s1 := by
          rw [hwalk]
          rfl
        rw [hcheck, mmuFaultCheck_refused hno, Option.bind_assoc] at hagain
        obtain ⟨⟨⟨⟩, s3⟩, htrap, hagain⟩ := Option.bind_eq_some_iff.mp hagain
        cases hagain
        cases hfinish
        exact h.trans (hraise _ _ _ _ _ htrap) (h.flags rfl rfl rfl)

/-- **A call of `mmu_ifetch`.** -/
theorem mmuIfetch (h : Covers env R) (hraise : ∀ cause tval, Within R (raise cause tval)) (vaddr : Word) :
    Within R (mmuIfetch env raise vaddr) := by
  intro s insn s' hrun
  by_cases hsatp : s.cpu.csr.satp = 0
  · rw [mmuIfetch_bare hsatp] at hrun
    cases hrun
    exact h.refl s
  cases hretry : s.needRetranslate with
  | true =>
    rw [mmuIfetch_retranslate hsatp hretry] at hrun
    cases hrun
    exact h.refl s
  | false =>
    rw [mmuIfetch_paged hsatp hretry] at hrun
    cases hlook : s.itlb.lookup vaddr .fetch with
    | some e =>
      rw [hlook] at hrun
      cases hrun
      exact h.refl s
    | none =>
      rw [hlook] at hrun
      change ifetchMiss env raise vaddr s = _ at hrun
      obtain ⟨pteAddr, level, hg⟩ | hno := granted_or env s.cpu vaddr .fetch
      · rw [ifetchMiss_granted hg] at hrun
        cases hrun
        exact h.refill hg
      · rw [ifetchMiss_refused hno] at hrun
        obtain ⟨⟨⟨⟩, s1⟩, htrap, hagain⟩ := Option.bind_eq_some_iff.mp hrun
        exact h.trans (hraise _ _ _ _ _ htrap) (h.ifetchAgain hraise vaddr s1 _ _ hagain)

end Covers

theorem covers_mmuReach (env : SysEnv) : Covers env (MmuReach env) where
  refl _ := .refl
  trans := .trans
  flags hcpu hdtlb hitlb := by
    refine .single (.context hdtlb hitlb ?_)
    rw [hcpu]
    exact .refl env _
  hit hsatp hlook := .single (.translate fun _ => mmuTranslate_hit hsatp hlook)
  fill hg := .single (.retry hg)
  refill hg := .single (.refetch hg)

/-- **A call of `mmu_translate` is a run**, with its page faults and the second walk. -/
theorem mmuTranslate_within {env : SysEnv} {raise : Raise}
    (hraise : ∀ cause tval, Within (MmuReach env) (raise cause tval)) (vaddr : Word) (access : Access) :
    Within (MmuReach env) (mmuTranslate env raise vaddr access) :=
  (covers_mmuReach env).mmuTranslate hraise vaddr access

/-- **A call of `mmu_ifetch` is a run.** -/
theorem mmuIfetch_within {env : SysEnv} {raise : Raise}
    (hraise : ∀ cause tval, Within (MmuReach env) (raise cause tval)) (vaddr : Word) :
    Within (MmuReach env) (mmuIfetch env raise vaddr) := (covers_mmuReach env).mmuIfetch hraise vaddr

/-! ## When the TLBs are transparent -/

/-- **When the TLBs are transparent.** From empty TLBs, whatever the guest does, an access is what it
would be with both TLBs flushed unless S-mode with `SUM` off hits a page of the user. -/
theorem tlb_transparent_iff {env : SysEnv} {s₀ s : Sys} (hempty : s₀.tlbFlushAll = s₀) (hrun : MmuReach env s₀ s)
    (vaddr : Word) :
    (∀ access, TranslateTransparent env s vaddr access ↔ ¬ Stale s.cpu s.dtlb vaddr access) ∧
      (IfetchTransparent env s vaddr ↔ s.needRetranslate = true ∨ ¬ Stale s.cpu s.itlb vaddr .fetch) := by
  have hcoherent : Coherent env s := by
    refine hrun.coherent ?_
    rw [← hempty]
    exact coherent_flushed env s₀
  exact ⟨fun access => hcoherent.translateTransparent_iff, hcoherent.ifetchTransparent_iff⟩

/-- U-mode, under a table at `0x4000` that lets the user read the first 4 MiB. -/
def userPage : Sys :=
  let zero := Cpu.zero (Mem.writeW (fun _ => 0) 0x4000 0x13)
  { cpu := { zero with privMode := 0, csr := { zero.csr with satp := 0x80000004 } } }

/-- The program reads from its page and the kernel takes over, with `SUM` off. -/
def kernelTurn : Sys :=
  let s := userPage.fillDtlb 0x100 .read 0x4000 1
  { s with cpu := { s.cpu with privMode := 1 } }

theorem userPage_granted : Granted deviceless userPage.cpu 0x100 .read 0x4000 1 := ⟨by decide, by decide⟩

theorem kernelTurn_reached : MmuReach deviceless userPage kernelTurn := by
  have hread : MmuStep deviceless userPage (userPage.fillDtlb 0x100 .read 0x4000 1) :=
    .translate fun _ => (mmuTranslate_miss (by decide) lookup_empty).trans (translateMiss_granted userPage_granted)
  refine .tail (.single hread) (.context rfl rfl ?_)
  exact tablesKept_of_words rfl fun _ _ => rfl

theorem tlb_transparent_kernelTurn :
    userPage.tlbFlushAll = userPage ∧ MmuReach deviceless userPage kernelTurn ∧
      (∀ access, TranslateTransparent deviceless kernelTurn 0x100 access ↔
        ¬ Stale kernelTurn.cpu kernelTurn.dtlb 0x100 access) ∧
      (IfetchTransparent deviceless kernelTurn 0x100 ↔
        kernelTurn.needRetranslate = true ∨ ¬ Stale kernelTurn.cpu kernelTurn.itlb 0x100 .fetch) :=
  ⟨rfl, kernelTurn_reached, tlb_transparent_iff rfl kernelTurn_reached 0x100⟩

/-- A load of the kernel gets through on the entry that the program left, where the check of the walk
would raise a page fault. -/
theorem kernelTurn_not_transparent :
    userPage.tlbFlushAll = userPage ∧ MmuReach deviceless userPage kernelTurn ∧
      ¬ TranslateTransparent deviceless kernelTurn 0x100 .read := by
  refine ⟨rfl, kernelTurn_reached, ?_⟩
  have hwalk : mmuWalk deviceless kernelTurn.cpu 0x100 = some (0x4000, 1) := by decide
  have hrefused : ∀ pteAddr level, ¬ Granted deviceless kernelTurn.cpu 0x100 .read pteAddr level := by
    rintro pteAddr level ⟨hleaf, hok⟩
    rw [hwalk] at hleaf
    cases hleaf
    revert hok
    decide
  have hsatp : kernelTurn.cpu.csr.satp ≠ 0 := by decide
  have hlook : kernelTurn.dtlb.lookup 0x100 .read = some (kernelTurn.dtlb 0) := by decide
  refine not_transparent (mmuTranslate_hit hsatp hlook) ?_
  exact (mmuTranslate_flushed hsatp).trans (translateMiss_refused (s := kernelTurn.tlbFlushAll) hrefused)

end Rv32emu
