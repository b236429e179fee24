import Rv32emu.JitAlloc
import Mathlib.Data.List.Perm.Subperm

/-!
# What the register map says of the host

* `Layout` : where `riscv_t` and the guest's memory lie; `Rep` : which host words stand for a VM register;
* `Holds` : the invariant of tier 1. A VM register is in one host register at most; that register has its value,
  unless it is still to be loaded; and where no dirty host register has it, `rv->X` does;
* `exec_saveReg`, `exec_mapVmReg`, `exec_raLoad`, `exec_raLoad2`, `exec_storeBack` : the allocator keeps it, for any
  liveness and any queue with all VM registers.
-/

namespace Rv32emu.Tier1

open X64 (Emitter lo zx)
open X64.Emitter (emit)

/-! ## Memory -/

/-- The host's memory: `riscv_t` up to `PC`, and `memSize` bytes of guest memory. -/
structure Layout where
  rv : BitVec 64
  memBase : BitVec 64
  memSize : Nat
  memSize_le : memSize ≤ 2 ^ 32
  apart : ∀ k off : BitVec 64, k.toNat < 136 → off.toNat < memSize → rv + k ≠ memBase + off

/-- The address of `rv->X[r]`. -/
def Layout.slot (L : Layout) (r : Reg) : BitVec 64 := L.rv + (slotOff r).signExtend 64

theorem slotOff_toNat (r : Reg) : ((slotOff r).signExtend 64).toNat = 4 + 4 * r.toNat := by
  revert r
  decide

theorem slotOff_ne_zero : ∀ r, slotOff r ≠ 0 := by decide

section Memory

variable (L : Layout) (w : X64.Width) (hm : X64.Memory) (v : Word)

/-- The byte `k` of a slot, by its distance from `rv`. -/
theorem Layout.slot_add (r : Reg) {k : BitVec 64} (hk : k.toNat < 4) :
    ∃ d : BitVec 64, L.slot r + k = L.rv + d ∧ d.toNat = 4 + 4 * r.toNat + k.toNat := by
  have hr := r.isLt
  have hoff := slotOff_toNat r
  refine ⟨(slotOff r).signExtend 64 + k, BitVec.add_assoc .., ?_⟩
  rw [BitVec.toNat_add, hoff, Nat.mod_eq_of_lt (by omega)]

theorem Layout.slot_ne {r q : Reg} (h : r ≠ q) {j k : BitVec 64} (hj : j.toNat < 4) (hk : k.toNat < 4) :
    L.slot q + j ≠ L.slot r + k := by
  obtain ⟨d, hd, hdn⟩ := L.slot_add q hj
  obtain ⟨e, he, hen⟩ := L.slot_add r hk
  intro heq
  rw [hd, he, BitVec.add_right_inj] at heq
  rw [heq] at hdn
  exact h (BitVec.eq_of_toNat_eq (by omega))

theorem Layout.slot_ne_guest (r : Reg) {k off : BitVec 64} (hk : k.toNat < 4) (h : off.toNat < L.memSize) :
    L.slot r + k ≠ L.memBase + off := by
  obtain ⟨d, hd, hdn⟩ := L.slot_add r hk
  have hr := r.isLt
  rw [hd]
  exact L.apart d off (by omega) h

theorem Layout.read_slot_of_ne {r q : Reg} (h : r ≠ q) :
    X64.Width.s32.read (X64.Width.s32.write hm (L.slot r) v) (L.slot q) = X64.Width.s32.read hm (L.slot q) :=
  X64.Width.s32.read_congr fun _ hj => X64.Width.s32.write_of_ne fun _ hk => L.slot_ne h hj hk

theorem Layout.guest_write_slot (r : Reg) {off : BitVec 64} (h : off.toNat < L.memSize) :
    X64.Width.s32.write hm (L.slot r) v (L.memBase + off) = hm (L.memBase + off) :=
  X64.Width.s32.write_of_ne fun _ hk => (L.slot_ne_guest r hk h).symm

theorem Layout.read_slot_write_guest (r : Reg) {a : BitVec 64} (h : a.toNat + w.size ≤ L.memSize) :
    X64.Width.s32.read (w.write hm (L.memBase + a) v) (L.slot r) = X64.Width.s32.read hm (L.slot r) := by
  have hsize := L.memSize_le
  refine X64.Width.s32.read_congr fun j hj => w.write_of_ne fun k hk => ?_
  rw [BitVec.add_assoc]
  refine L.slot_ne_guest r hj ?_
  rw [BitVec.toNat_add]
  exact (Nat.mod_le _ _).trans_lt (by omega)

end Memory

/-! ## The invariant -/

/-- Which words in a host register stand for the value of a VM register. -/
structure Rep where
  holds : BitVec 64 → Word → Prop
  zx : ∀ x, holds (zx x) x
  lo_eq : ∀ {v x}, holds v x → lo v = x

namespace Rep

def zero : Rep where
  holds v x := v = X64.zx x
  zx _ := rfl
  lo_eq h := h ▸ X64.lo_zx _

def low : Rep where
  holds v x := lo v = x
  zx _ := X64.lo_zx _
  lo_eq h := h

def Narrow (R : Rep) : Prop := ∀ {v x}, R.holds v x → v = X64.zx x

def Wide (R : Rep) : Prop := ∀ v, R.holds v (lo v)

/-- Without sign extension the high half need not be free. -/
theorem wide_of_false (R : Rep) (h : false = true) : R.Wide := absurd h Bool.false_ne_true

end Rep

/-- Between two nodes `P` is empty; within one, it has the VM registers that are mapped but not loaded. -/
structure Holds (L : Layout) (R : Rep) (X : Reg → Word) (mem : Mem) (P : Set Reg) (m : RegMap) (s : X64.State) :
    Prop where
  x0 : X regZero = 0
  inj : ∀ {i j r}, m.vmReg i = some r → m.vmReg j = some r → i = j
  alive : ∀ {i}, m.alive i = true → m.vmReg i ≠ none
  dirty : ∀ {i}, m.dirty i = true → m.vmReg i ≠ none
  value : ∀ {i r}, m.vmReg i = some r → r ∉ P → R.holds (s.regs (hostReg i)) (X r)
  slot : ∀ {r}, r ≠ regZero → (∀ i, m.vmReg i = some r → m.dirty i = false) →
    X64.Width.s32.read s.mem (L.slot r) = X r
  guest : ∀ off : BitVec 64, off.toNat < L.memSize → s.mem (L.memBase + off) = mem off
  rv : s.regs rvReg = L.rv
  stack : s.stack = []

/-- What the code of the allocator leaves alone besides the mapped registers. -/
structure Keeps (s s' : X64.State) : Prop where
  flags : s'.flags = s.flags
  temp : s'.regs tempReg = s.regs tempReg

theorem Keeps.refl (s : X64.State) : Keeps s s := ⟨rfl, rfl⟩

theorem Keeps.trans {s s' s'' : X64.State} (h : Keeps s s') (h' : Keeps s' s'') : Keeps s s'' :=
  ⟨h'.flags.trans h.flags, h'.temp.trans h.temp⟩

/-- The registers of `s` with the memory `hm`. -/
abbrev withMem (s : X64.State) (hm : X64.Memory) : X64.State := { s with mem := hm }

theorem Keeps.withMem (s : X64.State) (hm : X64.Memory) : Keeps s (withMem s hm) := ⟨rfl, rfl⟩

def RegMap.Mapped (m : RegMap) (r : Reg) : Prop := ∃ i, m.vmReg i = some r

/-- `r`, if it has to be loaded after it has been mapped. -/
def RegMap.pending (m : RegMap) (r : Reg) : Set Reg := {q | q = r ∧ ¬ m.Mapped r}

namespace Holds

variable {L : Layout} {R : Rep} {X : Reg → Word} {mem : Mem} {P Q : Set Reg} {m : RegMap} {s s' : X64.State}
  {i : HostIdx} {r : Reg}

theorem slot_addr (h : Holds L R X mem P m s) (r : Reg) : s.addr rvReg (slotOff r) = L.slot r := by
  rw [X64.State.addr, h.rv, Layout.slot]

theorem lo_value (h : Holds L R X mem P m s) (hi : m.vmReg i = some r) (hr : r ∉ P) :
    lo (s.regs (hostReg i)) = X r :=
  R.lo_eq (h.value hi hr)

theorem mono (h : Holds L R X mem P m s) (hPQ : P ⊆ Q) : Holds L R X mem Q m s :=
  { h with value := fun hi hq => h.value hi fun hp => hq (hPQ hp) }

/-- A host register that is not mapped may change. -/
theorem set_temp (h : Holds L R X mem P m s) (v : BitVec 64) (f : Option X64.Flags) :
    Holds L R X mem P m ({ s with flags := f }.set tempReg v) :=
  { h with
    value := fun {i _} hi hr => by
      rw [X64.State.set_regs, Function.update_of_ne (hostReg_ne_tempReg i)]
      exact h.value hi hr
    rv := by
      rw [X64.State.set_regs, Function.update_of_ne (by decide)]
      exact h.rv }

theorem set_flags (h : Holds L R X mem P m s) (f : Option X64.Flags) :
    Holds L R X mem P m { s with flags := f } :=
  { h with }

/-- The mark of a mapped register and the memory change. -/
theorem mark (h : Holds L R X mem P m s) (hi : m.vmReg i = some r) (d : Bool) (hm : X64.Memory)
    (hslot : ∀ q, q ≠ regZero → (∀ k, m.vmReg k = some q → Function.update m.dirty i d k = false) →
      X64.Width.s32.read hm (L.slot q) = X q)
    (hguest : ∀ off : BitVec 64, off.toNat < L.memSize → hm (L.memBase + off) = s.mem (L.memBase + off)) :
    Holds L R X mem P (m.setDirty (hostReg i) d) (withMem s hm) where
  x0 := h.x0
  inj := by
    rw [RegMap.setDirty_vmReg]
    exact h.inj
  alive := by
    rw [RegMap.setDirty_vmReg, RegMap.setDirty_alive]
    exact h.alive
  dirty := fun {k} hk => by
    rw [RegMap.setDirty_dirty] at hk
    rw [RegMap.setDirty_vmReg]
    by_cases hki : k = i
    · rw [hki, hi]
      exact Option.some_ne_none _
    · exact h.dirty (by rwa [Function.update_of_ne hki] at hk)
  value := by
    rw [RegMap.setDirty_vmReg]
    exact h.value
  slot := by
    rw [RegMap.setDirty_vmReg, RegMap.setDirty_dirty]
    exact fun {q} => hslot q
  guest := fun off hoff => (hguest off hoff).trans (h.guest off hoff)
  rv := h.rv
  stack := h.stack

/-- The value of a mapped register may be saved again. -/
theorem setDirty (h : Holds L R X mem P m s) (hi : m.vmReg i = some r) :
    Holds L R X mem P (m.setDirty (hostReg i) true) s := by
  refine h.mark hi true s.mem (fun q hq hclean => h.slot hq fun k hk => ?_) fun _ _ => rfl
  have hc := hclean k hk
  by_cases hki : k = i
  · rw [hki, Function.update_self] at hc
    cases hc
  · rwa [Function.update_of_ne hki] at hc

/-- **The register that `r` is mapped to gets a new value.** Of the others none may still have to be loaded. -/
theorem write (h : Holds L R X mem P m s) (hi : m.vmReg i = some r) (hP : ∀ q ∈ P, q = r) (hr : r ≠ regZero)
    {x : Word} (hv : R.holds (s'.regs (hostReg i)) x)
    (hregs : ∀ q, q ≠ hostReg i → q ≠ tempReg → s'.regs q = s.regs q) (hmem : s'.mem = s.mem)
    (hstack : s'.stack = s.stack) :
    Holds L R (Function.update X r x) mem ∅ (m.setDirty (hostReg i) true) s' := by
  have hd := h.setDirty hi
  refine { inj := hd.inj, alive := hd.alive, dirty := hd.dirty, x0 := ?_, value := fun {k q} hk _ => ?_,
           slot := fun {q} hq hclean => ?_, guest := ?_, rv := ?_, stack := hstack.trans h.stack }
  · rw [Function.update_of_ne hr.symm]
    exact h.x0
  · rw [RegMap.setDirty_vmReg] at hk
    by_cases hki : k = i
    · subst hki
      cases hk.symm.trans hi
      rwa [Function.update_self]
    · have hqr : q ≠ r := fun hqr => hki (h.inj hk (hqr ▸ hi))
      rw [Function.update_of_ne hqr, hregs _ (fun hc => hki (hostReg_injective hc)) (hostReg_ne_tempReg k)]
      exact h.value hk fun hp => hqr (hP q hp)
  · have hqr : q ≠ r := fun hqr => by
      have hc := hclean i (by rwa [RegMap.setDirty_vmReg, hqr])
      rw [RegMap.setDirty_dirty, Function.update_self] at hc
      cases hc
    rw [Function.update_of_ne hqr, hmem]
    exact hd.slot hq hclean
  · rw [hmem]
    exact h.guest
  · rw [hregs _ (fun hc => (hostReg_ne_rvReg i) hc.symm) (by decide)]
    exact h.rv

end Holds

/-! ## Saving a register -/

section Alloc

variable {L : Layout} {R : Rep} {X : Reg → Word} {mem : Mem} {P : Set Reg} {m : RegMap} {s : X64.State}
  {i : HostIdx} {r : Reg}

theorem mapsX0_eq_false (hi : m.vmReg i = some r) (hr : r ≠ regZero) : m.mapsX0 (hostReg i) = false := by
  rw [← Bool.not_eq_true, RegMap.mapsX0_hostReg, hi, Option.some_inj]
  exact hr

/-- The entry is clean, and its value is in `rv->X`. -/
theorem Holds.saved (h : Holds L R X mem P m s) (hi : m.vmReg i = some r) (hP : r ∉ P) :
    Holds L R X mem P (m.setDirty (hostReg i) false)
      (withMem s (X64.Width.s32.write s.mem (L.slot r) (lo (s.regs (hostReg i))))) := by
  refine h.mark hi false _ (fun q hq hclean => ?_) fun off hoff => L.guest_write_slot _ _ r hoff
  by_cases hqr : r = q
  · subst hqr
    rw [h.lo_value hi hP]
    exact Mem.readW_writeW _ _ _
  · refine (L.read_slot_of_ne _ _ hqr).trans (h.slot hq fun k hk => ?_)
    have hki : k ≠ i := fun hki => hqr (Option.some_inj.mp (hi.symm.trans (hki ▸ hk)))
    rw [← hclean k hk, Function.update_of_ne hki]

/-- The entry of `x0` needs no slot. -/
theorem Holds.saved_x0 (h : Holds L R X mem P m s) (hi : m.vmReg i = some regZero) :
    Holds L R X mem P (m.setDirty (hostReg i) false) s := by
  refine h.mark hi false s.mem (fun q hq hclean => h.slot hq fun k hk => ?_) fun _ _ => rfl
  have hki : k ≠ i := fun hki => hq (Option.some_inj.mp (hi.symm.trans (hki ▸ hk))).symm
  rw [← hclean k hk, Function.update_of_ne hki]

theorem exec_saveReg (h : Holds L R X mem P m s) (i : HostIdx) (hP : ∀ q, m.vmReg i = some q → q ∉ P) :
    ∃ hm, (saveReg i).exec m s = some ((), m.setDirty (hostReg i) false, withMem s hm) ∧
      Holds L R X mem P (m.setDirty (hostReg i) false) (withMem s hm) := by
  cases hd : m.dirty i with
  | false =>
    have hm : m.setDirty (hostReg i) false = m := by
      rw [RegMap.setDirty_hostReg, ← hd, Function.update_eq_self]
    rw [hm]
    exact ⟨s.mem, by simp [saveReg, hd], h⟩
  | true =>
    obtain ⟨r, hi⟩ := Option.ne_none_iff_exists'.mp (h.dirty hd)
    by_cases hr : r = regZero
    · subst hr
      exact ⟨s.mem, by simp [saveReg, hd, hi], h.saved_x0 hi⟩
    · refine ⟨_, ?_, h.saved hi (hP r hi)⟩
      simp only [saveReg, Emitter.exec_bind, Emitter.exec_get, Option.bind_some, hd, reduceIte, hi, Option.some_inj, hr,
        entryOff]
      rw [exec_emitStore _ _ _ (mapsX0_eq_false hi hr), if_neg (slotOff_ne_zero r), h.slot_addr r]
      simp

/-! ## Mapping a register -/

theorem Holds.origin_iff (h : Holds L R X mem P m s) :
    m.origin r = some (hostReg i) ↔ m.vmReg i = some r := by
  constructor
  · intro ho
    obtain ⟨j, hj, hji⟩ := RegMap.origin_eq_some ho
    exact hostReg_injective hji ▸ hj
  · intro hi
    obtain ⟨v, hv⟩ := Option.ne_none_iff_exists'.mp (RegMap.origin_ne_none hi)
    obtain ⟨j, hj, hjv⟩ := RegMap.origin_eq_some hv
    rw [hv, ← hjv, h.inj hi hj]

/-- An entry that is clean is given to a register that has none. -/
theorem Holds.remap (h : Holds L R X mem P m s) (hd : m.dirty i = false) (hr : ¬ m.Mapped r) :
    Holds L R X mem (P ∪ {r}) ((m.unmapVmReg i).setVmReg i r) s := by
  have hvm : ((m.unmapVmReg i).setVmReg i r).vmReg = Function.update m.vmReg i (some r) := Function.update_idem ..
  have hold : ∀ {k q}, k ≠ i → Function.update m.vmReg i (some r) k = some q → m.vmReg k = some q := fun hk h => by
    rwa [Function.update_of_ne hk] at h
  have hnew : ∀ {q}, Function.update m.vmReg i (some r) i = some q → q = r := fun h => by
    rw [Function.update_self, Option.some_inj] at h
    exact h.symm
  refine { h with inj := ?_, alive := ?_, dirty := ?_, value := ?_, slot := ?_ }
  · rw [hvm]
    intro j k q hj hk
    by_cases hji : j = i <;> by_cases hki : k = i
    · rw [hji, hki]
    · exact absurd ⟨k, hnew (hji ▸ hj) ▸ hold hki hk⟩ hr
    · exact absurd ⟨j, hnew (hki ▸ hk) ▸ hold hji hj⟩ hr
    · exact h.inj (hold hji hj) (hold hki hk)
  · rw [hvm]
    intro k hk
    by_cases hki : k = i
    · rw [hki, Function.update_self]
      exact Option.some_ne_none _
    · rw [Function.update_of_ne hki]
      exact h.alive ((Function.update_of_ne hki _ _).symm.trans hk)
  · rw [hvm]
    intro k hk
    by_cases hki : k = i
    · rw [hki, Function.update_self]
      exact Option.some_ne_none _
    · rw [Function.update_of_ne hki]
      exact h.dirty hk
  · rw [hvm]
    intro k q hk hq
    by_cases hki : k = i
    · exact absurd (.inr (hnew (hki ▸ hk))) hq
    · exact h.value (hold hki hk) fun hp => hq (.inl hp)
  · rw [hvm]
    intro q hq hclean
    refine h.slot hq fun k hk => ?_
    by_cases hki : k = i
    · rw [hki, hd]
    · exact hclean k (by rwa [Function.update_of_ne hki])

/-- There is an entry to pick, and it is not a reserved one. -/
theorem regPick_eq_some {queue : List Reg} (hq : ∀ r, r ∈ queue) {reserved : List X64.Reg}
    (hres : reserved.length ≤ 2) (halive : ∀ {i}, m.alive i = true → m.vmReg i ≠ none) :
    ∃ i, regPick queue reserved m = some i ∧ hostReg i ∉ reserved := by
  unfold regPick
  cases hf : (List.finRange 10).find? fun i => hostReg i ∉ reserved ∧ m.alive i = false with
  | some i =>
    have hi := List.find?_some hf
    simp only [decide_eq_true_eq] at hi
    exact ⟨i, rfl, hi.1⟩
  | none =>
    obtain ⟨i, hi⟩ : ∃ i, hostReg i ∉ reserved := by
      by_contra! hall
      have hsub := List.Nodup.subperm (show [hostReg 0, hostReg 1, hostReg 2].Nodup by decide)
        (fun v hv => by
          simp only [List.mem_cons, List.not_mem_nil, or_false] at hv
          obtain rfl | rfl | rfl := hv <;> exact hall _)
      exact absurd (hsub.length_le.trans hres) (by decide)
    have hal : m.alive i = true := by
      have hi' := List.find?_eq_none.mp hf i (List.mem_finRange i)
      simp only [decide_eq_true_eq, not_and, Bool.not_eq_false] at hi'
      exact hi' hi
    obtain ⟨r, hr⟩ := Option.ne_none_iff_exists'.mp (halive hal)
    simp only
    cases hs : queue.findSome? fun candidate =>
        (List.finRange 10).find? fun j => hostReg j ∉ reserved ∧ m.vmReg j = some candidate with
    | some j =>
      obtain ⟨c, _, hc⟩ := List.exists_of_findSome?_eq_some hs
      have hj := List.find?_some hc
      simp only [decide_eq_true_eq] at hj
      exact ⟨j, rfl, hj.1⟩
    | none =>
      have hnone := List.find?_eq_none.mp (List.findSome?_eq_none_iff.mp hs r (hq r)) i (List.mem_finRange i)
      simp only [decide_eq_true_eq, not_and] at hnone
      exact absurd hr (hnone hi)

/-- How `r` comes to be mapped to the entry `i`. -/
structure MapsTo (m m' : RegMap) (reserved : List X64.Reg) (r : Reg) (i : HostIdx) : Prop where
  mapped : m'.vmReg i = some r
  old : m.Mapped r → m' = m
  new : ¬ m.Mapped r → m'.dirty i = false ∧ hostReg i ∉ reserved
  vmReg : ∀ {k}, k ≠ i → m'.vmReg k = m.vmReg k
  dirty : ∀ {k}, k ≠ i → m'.dirty k = m.dirty k

/-- **The allocator maps `r`**, which has to be loaded if it was not mapped. -/
theorem exec_mapVmRegBut {queue : List Reg} (hq : ∀ r, r ∈ queue) (h : Holds L R X mem P m s) (reserved : List X64.Reg)
    (hres : reserved.length ≤ 2) (hP : ∀ k q, m.vmReg k = some q → q ∈ P → hostReg k ∈ reserved) (r : Reg) :
    ∃ i m' hm, (mapVmRegBut queue reserved r).exec m s = some (hostReg i, m', withMem s hm) ∧
      MapsTo m m' reserved r i ∧ Holds L R X mem (P ∪ m.pending r) m' (withMem s hm) := by
  cases hf : m.find r with
  | some i =>
    have hi := RegMap.find_eq_some hf
    exact ⟨i, m, s.mem, by simp [mapVmRegBut, hf], ⟨hi, fun _ => rfl, fun hn => absurd ⟨i, hi⟩ hn, fun _ => rfl,
      fun _ => rfl⟩, h.mono Set.subset_union_left⟩
  | none =>
    have hn : ¬ m.Mapped r := fun ⟨i, hi⟩ => RegMap.find_eq_none hf i hi
    obtain ⟨i, hpick, hi⟩ := regPick_eq_some hq hres h.alive
    obtain ⟨hm, hx, hs⟩ := exec_saveReg h i fun q hk hp => hi (hP i q hk hp)
    have hd : (((m.setDirty (hostReg i) false).unmapVmReg i).setVmReg i r).dirty = Function.update m.dirty i false :=
      RegMap.setDirty_dirty ..
    refine ⟨i, ((m.setDirty (hostReg i) false).unmapVmReg i).setVmReg i r, hm, by simp [mapVmRegBut, hf, hpick, hx],
      ⟨Function.update_self .., fun hmap => absurd hmap hn,
      fun _ => ⟨?_, hi⟩, fun {k} hk => ?_, fun {k} hk => ?_⟩, ?_⟩
    · rw [hd, Function.update_self]
    · simp only [RegMap.setVmReg, RegMap.unmapVmReg, Function.update_of_ne hk, RegMap.setDirty_vmReg]
    · rw [hd, Function.update_of_ne hk]
    · refine (hs.remap (r := r) (i := i) ?_ ?_).mono fun q hq => hq.imp_right fun hqr => ⟨hqr, hn⟩
      · rw [RegMap.setDirty_dirty, Function.update_self]
      · rintro ⟨k, hk⟩
        exact hn ⟨k, by rwa [RegMap.setDirty_vmReg] at hk⟩

/-! ## Loading a register -/

/-- The register of `i` is set to the value of `r`. -/
theorem Holds.reload (h : Holds L R X mem P m s) {s' : X64.State} (hi : m.vmReg i = some r)
    (hv : R.holds (s'.regs (hostReg i)) (X r)) (hregs : ∀ q, q ≠ hostReg i → s'.regs q = s.regs q)
    (hmem : s'.mem = s.mem) (hstack : s'.stack = s.stack) : Holds L R X mem (P \ {r}) m s' where
  x0 := h.x0
  inj := h.inj
  alive := h.alive
  dirty := h.dirty
  value := fun {k q} hk hq => by
    by_cases hki : k = i
    · subst hki
      cases hk.symm.trans hi
      exact hv
    · rw [hregs _ fun hc => hki (hostReg_injective hc)]
      exact h.value hk fun hp => hq ⟨hp, fun hqr => hki (h.inj hk ((Set.mem_singleton_iff.mp hqr) ▸ hi))⟩
  slot := by
    rw [hmem]
    exact h.slot
  guest := by
    rw [hmem]
    exact h.guest
  rv := (hregs _ fun hc => hostReg_ne_rvReg i hc.symm).trans h.rv
  stack := hstack.trans h.stack

/-- What a load of `r` into the register of `i` does. -/
structure Loads (L : Layout) (R : Rep) (X : Reg → Word) (mem : Mem) (P : Set Reg) (r : Reg) (i : HostIdx) (sext : Bool)
    (m m' : RegMap) (s s' : X64.State) : Prop where
  holds : Holds L R X mem (P \ {r}) m' s'
  vmReg : m'.vmReg = m.vmReg
  dirty_of_ne : ∀ {k}, k ≠ i → m'.dirty k = m.dirty k
  clean : r = regZero ∨ m.dirty i = false → r = regZero ∨ m'.dirty i = false
  value : sext = true → s'.regs (hostReg i) = (X r).signExtend 64
  regs : ∀ q, q ≠ hostReg i → s'.regs q = s.regs q
  flags : s'.flags = s.flags

theorem Loads.keeps {sext : Bool} {m' : RegMap} {s' : X64.State} (h : Loads L R X mem P r i sext m m' s s') :
    Keeps s s' :=
  ⟨h.flags, h.regs _ (hostReg_ne_tempReg i).symm⟩

theorem Rep.holds_extend {sext : Bool} (hsext : sext = true → R.Wide) (x : Word) :
    R.holds (X64.Width.s32.extend x sext) x := by
  cases sext with
  | false => exact R.zx x
  | true =>
    have h := hsext rfl (x.signExtend 64)
    rwa [X64.lo_signExtend] at h

/-- From the slot, which has the value if the entry is clean. -/
theorem exec_loadSlot (h : Holds L R X mem P m s) (hi : m.vmReg i = some r)
    (hclean : r = regZero ∨ m.dirty i = false) {sext : Bool} (hsext : sext = true → R.Wide) :
    ∃ m' s', (emitLoadAs sext .s32 rvReg (hostReg i) (slotOff r)).exec m s = some ((), m', s') ∧
      Loads L R X mem P r i sext m m' s s' := by
  have hregs : ∀ (v : BitVec 64) q, q ≠ hostReg i → (s.set (hostReg i) v).regs q = s.regs q := fun v q hq =>
    Function.update_of_ne hq ..
  by_cases hr : r = regZero
  · subst hr
    have hv : (s.set (hostReg i) (zx 0)).regs (hostReg i) = zx 0 := Function.update_self ..
    refine ⟨_, _, exec_emitLoadAs_x0 _ _ _ ((m.mapsX0_hostReg i).mpr hi) _,
      (h.reload hi ?_ (hregs _) rfl rfl).setDirty hi, RegMap.setDirty_vmReg .., fun hk => ?_, fun _ => .inl rfl,
      fun _ => ?_, hregs _, rfl⟩
    · rw [hv, h.x0]
      exact R.zx 0
    · rw [RegMap.setDirty_dirty, Function.update_of_ne hk]
    · rw [hv, h.x0]
      rfl
  · have hd : m.dirty i = false := hclean.resolve_left hr
    have hm : m.setDirty (hostReg i) (decide (slotOff r = 0)) = m := by
      rw [decide_eq_false (slotOff_ne_zero r), RegMap.setDirty_hostReg, ← hd, Function.update_eq_self]
    have hread : X64.Width.s32.read s.mem (s.addr rvReg (slotOff r)) = X r := by
      rw [h.slot_addr r]
      exact h.slot hr fun k hk => h.inj hk hi ▸ hd
    have hx := @exec_emitLoadAs rvReg _ _ s .s32 (slotOff r) (mapsX0_eq_false hi hr) sext
    rw [hm, hread] at hx
    have hv : (s.set (hostReg i) (X64.Width.s32.extend (X r) sext)).regs (hostReg i) =
        X64.Width.s32.extend (X r) sext := Function.update_self ..
    refine ⟨_, _, hx, h.reload hi ?_ (hregs _) rfl rfl, rfl, fun _ => rfl, id, fun hs => ?_, hregs _, rfl⟩
    · rw [hv]
      exact R.holds_extend hsext _
    · rw [hv, hs]
      rfl

/-- When `loadSext` has been told enough by the map `m0` from before the mapping. -/
def Loadable (m0 m : RegMap) (P : Set Reg) (r : Reg) (i : HostIdx) : Prop :=
  m0.origin r ≠ some (hostReg i) ∧ (r = regZero ∨ m.dirty i = false) ∨ m0.origin r = some (hostReg i) ∧ r ∉ P

theorem exec_loadSext (h : Holds L R X mem P m s) (hi : m.vmReg i = some r) {m0 : RegMap}
    (hload : Loadable m0 m P r i) {sext : Bool} (hsext : sext = true → R.Wide) :
    ∃ m' s', (loadSext m0 r (hostReg i) sext).exec m s = some ((), m', s') ∧
      Loads L R X mem P r i sext m m' s s' := by
  unfold loadSext
  rcases hload with ⟨ho, hclean⟩ | ⟨ho, hr⟩
  · rw [if_pos ho]
    exact exec_loadSlot h hi hclean hsext
  · rw [if_neg (not_not_intro ho)]
    have hP : Holds L R X mem (P \ {r}) m s :=
      h.reload hi (h.value hi hr) (fun _ _ => rfl) rfl rfl
    cases sext with
    | false =>
      exact ⟨m, s, by simp, hP, rfl, fun _ => rfl, id, fun hs => absurd hs Bool.false_ne_true, fun _ _ => rfl, rfl⟩
    | true =>
      have hv : (s.set (hostReg i) ((lo (s.regs (hostReg i))).signExtend 64)).regs (hostReg i) =
          (X r).signExtend 64 := by
        rw [X64.State.set_regs, Function.update_self, h.lo_value hi hr]
      have hregs : ∀ q, q ≠ hostReg i →
          (s.set (hostReg i) ((lo (s.regs (hostReg i))).signExtend 64)).regs q = s.regs q := fun q hq =>
        Function.update_of_ne hq ..
      refine ⟨m, _, by simp, h.reload hi ?_ hregs rfl rfl, rfl, fun _ => rfl, id, fun _ => hv, hregs, rfl⟩
      rw [hv]
      exact R.holds_extend hsext (X r)

section Queue

variable {queue : List Reg} (hq : ∀ r, r ∈ queue)

include hq

/-- The register that `ra_load` returns has the value of `r`. -/
theorem exec_raLoad (h : Holds L R X mem ∅ m s) (r : Reg) :
    ∃ i m' s', (raLoad queue r).exec m s = some (hostReg i, m', s') ∧ m'.vmReg i = some r ∧
      Holds L R X mem ∅ m' s' ∧ Keeps s s' := by
  obtain ⟨i, m1, hm, hx, hmap, h1⟩ := exec_mapVmRegBut hq h [] (by decide) (by simp) r
  have hload : Loadable m m1 (∅ ∪ m.pending r) r i := by
    by_cases hr : m.Mapped r
    · refine .inr ⟨?_, by simp [RegMap.pending, hr]⟩
      rw [h.origin_iff, ← hmap.old hr]
      exact hmap.mapped
    · refine .inl ⟨?_, .inr (hmap.new hr).1⟩
      rw [Ne, h.origin_iff]
      exact fun hi => hr ⟨i, hi⟩
  obtain ⟨m2, s2, hx2, h2⟩ := exec_loadSext h1 hmap.mapped hload R.wide_of_false
  refine ⟨i, m2, s2, ?_, ?_, h2.holds.mono fun q hq => ?_, (Keeps.withMem s hm).trans h2.keeps⟩
  · rw [raLoad, Emitter.exec_bind, Emitter.exec_get, Option.bind_some, Emitter.exec_bind, mapVmReg, hx,
      Option.bind_some, Emitter.exec_bind, hx2, Option.bind_some, Emitter.exec_pure]
  · rw [h2.vmReg, hmap.mapped]
  · obtain ⟨hq | hq, hqr⟩ := hq
    · exact hq
    · exact absurd hq.1 hqr

/-- The registers of two operands, before they are loaded. -/
theorem exec_mapVmReg2 (h : Holds L R X mem ∅ m s) (r1 r2 : Reg) :
    ∃ i1 i2 m' hm Q, (mapVmReg2 queue r1 r2).exec m s = some ((hostReg i1, hostReg i2), m', withMem s hm) ∧
      m'.vmReg i1 = some r1 ∧ m'.vmReg i2 = some r2 ∧ Holds L R X mem Q m' (withMem s hm) ∧
      Loadable m m' Q r1 i1 ∧ Loadable m m' Q r2 i2 ∧ ∀ q ∈ Q, q = r1 ∨ q = r2 := by
  obtain ⟨i1, m1, hm1, hx1, hmap1, h1⟩ := exec_mapVmRegBut hq h [] (by decide) (by simp) r1
  have horig : ∀ {r i}, m.origin r = some (hostReg i) ↔ m.vmReg i = some r := h.origin_iff
  by_cases h12 : r1 = r2
  · subst h12
    have hload : Loadable m m1 (∅ ∪ m.pending r1) r1 i1 := by
      by_cases hr : m.Mapped r1
      · refine .inr ⟨?_, by simp [RegMap.pending, hr]⟩
        rw [horig, ← hmap1.old hr]
        exact hmap1.mapped
      · refine .inl ⟨?_, .inr (hmap1.new hr).1⟩
        rw [Ne, horig]
        exact fun hi => hr ⟨i1, hi⟩
    refine ⟨i1, i1, m1, hm1, _, ?_, hmap1.mapped, hmap1.mapped, h1, hload, hload, ?_⟩
    · rw [mapVmReg2, if_pos rfl, Emitter.exec_bind, mapVmReg, hx1, Option.bind_some, Emitter.exec_pure]
    · rintro q (hq | hq)
      · exact hq.elim
      · exact .inl hq.1
  · have hres : ∀ k q, m1.vmReg k = some q → q ∈ (∅ : Set Reg) ∪ m.pending r1 → hostReg k ∈ [hostReg i1] := by
      rintro k q hk (hq | hq)
      · exact hq.elim
      · rw [h1.inj hk (hq.1 ▸ hmap1.mapped)]
        exact List.mem_singleton_self _
    obtain ⟨i2, m2, hm2, hx2, hmap2, h2⟩ := exec_mapVmRegBut hq h1 [hostReg i1] (by simp) hres r2
    have hne : i2 ≠ i1 := by
      rintro rfl
      by_cases hr : m1.Mapped r2
      · have hi := hmap2.mapped
        rw [hmap2.old hr, hmap1.mapped] at hi
        exact h12 (Option.some_inj.mp hi)
      · exact (hmap2.new hr).2 (List.mem_singleton_self _)
    refine ⟨i1, i2, m2, hm2, _, ?_, (hmap2.vmReg hne.symm).trans hmap1.mapped, hmap2.mapped, h2, ?_, ?_, ?_⟩
    · rw [mapVmReg2, if_neg h12, Emitter.exec_bind, mapVmReg, hx1, Option.bind_some, Emitter.exec_bind,
        mapVmRegReserved, hx2, Option.bind_some, Emitter.exec_pure]
    · by_cases hr : m.Mapped r1
      · refine .inr ⟨?_, ?_⟩
        · rw [horig, ← hmap1.old hr]
          exact hmap1.mapped
        · rintro ((hq | hq) | hq)
          · exact hq
          · exact hq.2 hr
          · exact h12 hq.1
      · refine .inl ⟨?_, .inr ((hmap2.dirty hne.symm).trans (hmap1.new hr).1)⟩
        rw [Ne, horig]
        exact fun hi => hr ⟨i1, hi⟩
    · by_cases hr : m1.Mapped r2
      · refine .inr ⟨?_, ?_⟩
        · rw [horig, ← hmap1.vmReg hne, ← hmap2.old hr]
          exact hmap2.mapped
        · rintro ((hq | hq) | hq)
          · exact hq
          · exact h12 hq.1.symm
          · exact hq.2 hr
      · refine .inl ⟨?_, .inr (hmap2.new hr).1⟩
        rw [Ne, horig]
        exact fun hi => hr ⟨i2, (hmap1.vmReg hne).trans hi⟩
    · rintro q ((hq | hq) | hq)
      · exact hq.elim
      · exact .inl hq.1
      · exact .inr hq.1

/-- The registers that `ra_load2_sext` leaves in `vm_reg[0]` and `vm_reg[1]`, where both operands are extended or
neither is. -/
theorem exec_raLoad2Sext (h : Holds L R X mem ∅ m s) (r1 r2 : Reg) {sext : Bool} (hsext : sext = true → R.Wide) :
    ∃ i1 i2 m' s', (raLoad2Sext queue r1 r2 sext sext).exec m s = some ((hostReg i1, hostReg i2), m', s') ∧
      m'.vmReg i1 = some r1 ∧ m'.vmReg i2 = some r2 ∧ Holds L R X mem ∅ m' s' ∧ Keeps s s' ∧
      (sext = true → s'.regs (hostReg i1) = (X r1).signExtend 64 ∧ s'.regs (hostReg i2) = (X r2).signExtend 64) := by
  obtain ⟨i1, i2, m1, hm, Q, hx1, hi1, hi2, h1, hl1, hl2, hQ⟩ := exec_mapVmReg2 hq h r1 r2
  obtain ⟨m2, s2, hx2, h2⟩ := exec_loadSext h1 hi1 hl1 hsext
  have hl2' : Loadable m m2 (Q \ {r1}) r2 i2 := by
    refine hl2.imp (And.imp_right fun hclean => ?_) (And.imp_right fun hr hc => hr hc.1)
    by_cases h12 : i2 = i1
    · have hr : r2 = r1 := Option.some_inj.mp (hi2.symm.trans (h12 ▸ hi1))
      rw [hr, h12] at hclean ⊢
      exact h2.clean hclean
    · rwa [h2.dirty_of_ne h12]
  obtain ⟨m3, s3, hx3, h3⟩ := exec_loadSext h2.holds (h2.vmReg ▸ hi2) hl2' hsext
  refine ⟨i1, i2, m3, s3, ?_, ?_, ?_, h3.holds.mono fun q hq => ?_, ?_, fun hs => ⟨?_, h3.value hs⟩⟩
  · rw [raLoad2Sext, Emitter.exec_bind, Emitter.exec_get, Option.bind_some, Emitter.exec_bind, hx1, Option.bind_some,
      Emitter.exec_bind, hx2, Option.bind_some, Emitter.exec_bind, hx3, Option.bind_some, Emitter.exec_pure]
  · rw [h3.vmReg, h2.vmReg, hi1]
  · rw [h3.vmReg, h2.vmReg, hi2]
  · exact ((hQ q hq.1.1).elim hq.1.2 hq.2).elim
  · exact ((Keeps.withMem s hm).trans h2.keeps).trans h3.keeps
  · by_cases h12 : i1 = i2
    · have hr : r1 = r2 := Option.some_inj.mp (hi1.symm.trans (h12 ▸ hi2))
      rw [h12, hr]
      exact h3.value hs
    · rw [h3.regs _ fun hc => h12 (hostReg_injective hc)]
      exact h2.value hs

/-- The registers that `ra_load2` leaves in `vm_reg[0]` and `vm_reg[1]`. -/
theorem exec_raLoad2 (h : Holds L R X mem ∅ m s) (r1 r2 : Reg) :
    ∃ i1 i2 m' s', (raLoad2 queue r1 r2).exec m s = some ((hostReg i1, hostReg i2), m', s') ∧
      m'.vmReg i1 = some r1 ∧ m'.vmReg i2 = some r2 ∧ Holds L R X mem ∅ m' s' ∧ Keeps s s' := by
  obtain ⟨i1, i2, m', s', hx, hi1, hi2, h', hk, _⟩ :=
    exec_raLoad2Sext hq h r1 r2 R.wide_of_false
  exact ⟨i1, i2, m', s', hx, hi1, hi2, h', hk⟩

end Queue

/-! ## Storing back -/

/-- The VM registers in `rv->X`, and the guest's memory. -/
structure Shows (L : Layout) (X : Reg → Word) (mem : Mem) (s : X64.State) : Prop where
  x0 : X regZero = 0
  slot : ∀ {r}, r ≠ regZero → X64.Width.s32.read s.mem (L.slot r) = X r
  guest : ∀ off : BitVec 64, off.toNat < L.memSize → s.mem (L.memBase + off) = mem off
  rv : s.regs rvReg = L.rv
  stack : s.stack = []

/-- With no entry mapped, `rv->X` is all there is. -/
theorem Shows.holds_reset (h : Shows L X mem s) : Holds L R X mem ∅ RegMap.reset s where
  x0 := h.x0
  inj hi := by cases hi
  alive hi := by cases hi
  dirty hi := by cases hi
  value hi := by cases hi
  slot hr _ := h.slot hr
  guest := h.guest
  rv := h.rv
  stack := h.stack

theorem exec_storeBackFrom (h : Holds L R X mem ∅ m s) (l : List HostIdx) :
    ∃ m' hm, (l.forM fun i => do
        let m ← Emitter.get
        if m.vmReg i ≠ none then saveReg i : Gen Unit).exec m s = some ((), m', withMem s hm) ∧
      Holds L R X mem ∅ m' (withMem s hm) ∧ m'.vmReg = m.vmReg ∧
      ∀ i, i ∈ l ∨ m.dirty i = false → m'.dirty i = false := by
  induction l generalizing m s with
  | nil => exact ⟨m, s.mem, by simp, h, rfl, fun i hi => hi.resolve_left List.not_mem_nil⟩
  | cons i l ih =>
    by_cases hi : m.vmReg i = none
    · have hd : m.dirty i = false := by
        rw [← Bool.not_eq_true]
        exact fun hd => h.dirty hd hi
      obtain ⟨m', hm, hx, h', hvm, hclean⟩ := ih h
      refine ⟨m', hm, by simpa [hi] using hx, h', hvm, fun k hk => hclean k ?_⟩
      rcases hk with hk | hk
      · rcases List.mem_cons.mp hk with rfl | hk
        · exact .inr hd
        · exact .inl hk
      · exact .inr hk
    · obtain ⟨hm1, hx1, h1⟩ := exec_saveReg h i fun _ _ => Set.notMem_empty _
      obtain ⟨m', hm, hx, h', hvm, hclean⟩ := ih h1
      refine ⟨m', hm, by simpa [hi, hx1] using hx, h', by rw [hvm, RegMap.setDirty_vmReg], fun k hk => hclean k ?_⟩
      rw [RegMap.setDirty_dirty]
      by_cases hki : k = i
      · rw [hki, Function.update_self]
        exact .inr rfl
      · rw [Function.update_of_ne hki]
        exact hk.imp_left fun hk => (List.mem_cons.mp hk).resolve_left hki

/-- **After `store_back` `rv->X` has the values of all VM registers.** -/
theorem exec_storeBack (h : Holds L R X mem ∅ m s) :
    ∃ m' hm, storeBack.exec m s = some ((), m', withMem s hm) ∧ (∀ i, m'.dirty i = false) ∧
      Shows L X mem (withMem s hm) := by
  obtain ⟨m', hm, hx, h', _, hclean⟩ := exec_storeBackFrom h (List.finRange 10)
  have hall (i : HostIdx) : m'.dirty i = false := hclean i (.inl (List.mem_finRange i))
  exact ⟨m', hm, hx, hall, h'.x0, fun hr => h'.slot hr fun i _ => hall i, h'.guest, h'.rv, h'.stack⟩

end Alloc

end Rv32emu.Tier1
