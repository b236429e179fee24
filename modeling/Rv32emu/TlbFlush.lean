import Rv32emu.Tlb

/-!
# What `SFENCE.VMA` with an address removes

The TLBs hold a superpage once for each of its 4 KiB pages that has been used, in slots of their own;
`mmu_tlb_flush` looks at one slot of each.

* `Slotted` : every valid entry is in the slot of its page;
* `Tlb.Holds` : the TLB has the page of an address;
* `LeafRemoved` : no entry is left that comes from the leaf entry of an address; `sfence_removes_iff`.
-/

open StateRel

namespace Rv32emu

/-! ## Slots -/

/-- Every valid entry is in the slot of its page. -/
def Tlb.Slotted (t : Tlb) : Prop :=
  ∀ i, (t i).valid = true → ∃ vaddr, i = Tlb.index vaddr ∧ (t i).vpn = vaddr >>> 12

def Tlb.Holds (t : Tlb) (vaddr : Word) : Prop :=
  (t (Tlb.index vaddr)).valid = true ∧ (t (Tlb.index vaddr)).vpn = vaddr >>> 12

instance (t : Tlb) (vaddr : Word) : Decidable (t.Holds vaddr) := inferInstanceAs (Decidable (_ ∧ _))

structure Slotted (s : Sys) : Prop where
  dtlb : s.dtlb.Slotted
  itlb : s.itlb.Slotted

section Slots

variable {env : SysEnv} {s s' : Sys} {t : Tlb} {vaddr : Word}

theorem Tlb.slotted_empty : Tlb.Slotted fun _ => {} := fun _ h => nomatch h

theorem Tlb.Slotted.populate (h : t.Slotted) (vaddr pteAddr pte : Word) (level : Nat) :
    (t.populate vaddr pteAddr pte level).Slotted := by
  intro i hi
  unfold Tlb.populate at hi ⊢
  by_cases hidx : i = Tlb.index vaddr
  · rw [hidx, Function.update_self]
    exact ⟨vaddr, rfl, rfl⟩
  · rw [Function.update_of_ne hidx] at hi ⊢
    exact h i hi

theorem Tlb.Slotted.setDirty (h : t.Slotted) (i : BitVec 6) (hvalid : (t i).valid = true) :
    Tlb.Slotted (Function.update t i { t i with dirty := true }) := by
  intro j hj
  by_cases hji : j = i
  · rw [hji, Function.update_self]
    exact h i hvalid
  · rw [Function.update_of_ne hji] at hj ⊢
    exact h j hj

theorem Tlb.flush_valid (t : Tlb) (vaddr : Word) (i : BitVec 6) :
    ((t.flush vaddr) i).valid = true ↔
      (t i).valid = true ∧ ¬ (i = Tlb.index vaddr ∧ (t i).vpn = vaddr >>> 12) := by
  unfold Tlb.flush
  simp only
  by_cases hidx : i = Tlb.index vaddr
  · subst hidx
    split_ifs with h
    · rw [Function.update_self]
      exact ⟨fun hv => (nomatch hv), fun hv => absurd ⟨rfl, h.2⟩ hv.2⟩
    · exact ⟨fun hv => ⟨hv, fun hpage => h ⟨hv, hpage.2⟩⟩, And.left⟩
  · split_ifs
    · rw [Function.update_of_ne hidx]
      exact ⟨fun hv => ⟨hv, fun hpage => hidx hpage.1⟩, And.left⟩
    · exact ⟨fun hv => ⟨hv, fun hpage => hidx hpage.1⟩, And.left⟩

/-- A flush changes no entry but for its valid bit. -/
theorem Tlb.flush_entry (t : Tlb) (vaddr : Word) (i : BitVec 6) :
    ((t.flush vaddr) i).vpn = (t i).vpn ∧ ((t.flush vaddr) i).pteAddr = (t i).pteAddr := by
  unfold Tlb.flush
  simp only
  split_ifs
  · by_cases hidx : i = Tlb.index vaddr
    · rw [hidx, Function.update_self]
      exact ⟨rfl, rfl⟩
    · rw [Function.update_of_ne hidx]
      exact ⟨rfl, rfl⟩
  · exact ⟨rfl, rfl⟩

theorem Tlb.Slotted.flush (h : t.Slotted) (vaddr : Word) : (t.flush vaddr).Slotted := by
  intro i hi
  rw [(t.flush_entry vaddr i).1]
  exact h i ((t.flush_valid vaddr i).mp hi).1

theorem Slotted.hitDtlb (h : Slotted s) {access : Access} {e : TlbEntry}
    (he : s.dtlb.lookup vaddr access = some e) : Slotted (s.hitDtlb vaddr access e) := by
  obtain ⟨rfl, hvalid, -, -⟩ := lookup_some he
  unfold Sys.hitDtlb
  split_ifs
  · exact ⟨h.dtlb.setDirty _ hvalid, h.itlb⟩
  · exact h

/-- **Every operation keeps the entries in their slots.** -/
theorem MmuStep.slotted (hstep : MmuStep env s s') (h : Slotted s) : Slotted s' := by
  cases hstep with
  | translate hrun =>
    obtain rfl | ⟨e, hlook, rfl⟩ | ⟨pteAddr, level, -, rfl⟩ := translate_cases hrun
    · exact h
    · exact h.hitDtlb hlook
    · exact ⟨h.dtlb.populate _ _ _ _, h.itlb⟩
  | ifetch hrun =>
    obtain rfl | ⟨pteAddr, level, -, rfl⟩ := ifetch_cases hrun
    · exact h
    · exact ⟨h.dtlb, h.itlb.populate _ _ _ _⟩
  | retry => exact ⟨h.dtlb.populate _ _ _ _, h.itlb⟩
  | refetch => exact ⟨h.dtlb, h.itlb.populate _ _ _ _⟩
  | context hdtlb hitlb => exact ⟨by rw [hdtlb]; exact h.dtlb, by rw [hitlb]; exact h.itlb⟩
  | satp ir hcsr v =>
    unfold csrSideEffects
    rw [if_pos hcsr]
    split_ifs
    · exact ⟨Tlb.slotted_empty, Tlb.slotted_empty⟩
    · exact ⟨Tlb.slotted_empty, Tlb.slotted_empty⟩
    · exact ⟨h.dtlb, h.itlb⟩
    · exact ⟨h.dtlb, h.itlb⟩
  | sfence ir =>
    split_ifs
    · exact ⟨Tlb.slotted_empty, Tlb.slotted_empty⟩
    · exact ⟨h.dtlb.flush _, h.itlb.flush _⟩
  | remap cpu => exact ⟨Tlb.slotted_empty, Tlb.slotted_empty⟩

theorem MmuReach.slotted (hrun : MmuReach env s s') (h : Slotted s) : Slotted s' := by
  induction hrun with
  | refl => exact h
  | tail _ hstep ih => exact hstep.slotted ih

end Slots

/-! ## Entries of one leaf -/

/-- No valid entry comes from the leaf entry at `pteAddr`. -/
def Tlb.Without (t : Tlb) (pteAddr : Word) : Prop := ∀ i, (t i).valid = true → (t i).pteAddr ≠ pteAddr

/-- `mmu_tlb_flush` leaves no entry that comes from the leaf entry of the address. -/
def LeafRemoved (env : SysEnv) (s : Sys) (vaddr : Word) : Prop :=
  ∀ pteAddr level, mmuWalk env s.cpu vaddr = some (pteAddr, level) →
    (s.tlbFlush vaddr).dtlb.Without pteAddr ∧ (s.tlbFlush vaddr).itlb.Without pteAddr

/-- A TLB holds another page with the same leaf entry: of the same superpage, or through a table that is
used twice. -/
def HeldElsewhere (env : SysEnv) (s : Sys) (vaddr : Word) : Prop :=
  ∃ vaddr' : Word, vaddr' >>> 12 ≠ vaddr >>> 12 ∧ (mmuWalk env s.cpu vaddr').isSome ∧
    (mmuWalk env s.cpu vaddr').map Prod.fst = (mmuWalk env s.cpu vaddr).map Prod.fst ∧
    (s.dtlb.Holds vaddr' ∨ s.itlb.Holds vaddr')

section Leaf

variable {env : SysEnv} {s : Cpu} {t : Tlb} {vaddr pteAddr : Word}

/-- **What a flush leaves of a leaf entry**: the other pages that have come from it. -/
theorem Tlb.Coherent.without_iff (hc : t.Coherent env s) (hslot : t.Slotted) :
    (t.flush vaddr).Without pteAddr ↔
      ∀ vaddr' : Word, vaddr' >>> 12 ≠ vaddr >>> 12 → (mmuWalk env s vaddr').map Prod.fst = some pteAddr →
        ¬ t.Holds vaddr' := by
  constructor
  · rintro h vaddr' hne hwalk ⟨hvalid, hvpn⟩
    have hstays := (t.flush_valid vaddr (Tlb.index vaddr')).mpr
      ⟨hvalid, fun hpage => hne (hvpn.symm.trans hpage.2)⟩
    refine h _ hstays ?_
    rw [(t.flush_entry vaddr _).2]
    rw [(hc _ hvalid vaddr' hvpn.symm).1] at hwalk
    exact Option.some.inj hwalk
  · intro h i hi hpte
    obtain ⟨hvalid, hpage⟩ := (t.flush_valid vaddr i).mp hi
    obtain ⟨vaddr', rfl, hvpn⟩ := hslot i hvalid
    rw [(t.flush_entry vaddr _).2] at hpte
    have hwalk : (mmuWalk env s vaddr').map Prod.fst = some pteAddr := by
      rw [(hc _ hvalid vaddr' hvpn.symm).1, ← hpte]
      rfl
    refine h vaddr' (fun heq => hpage ⟨?_, hvpn.trans heq⟩) hwalk ⟨hvalid, hvpn⟩
    unfold Tlb.index
    rw [heq]

end Leaf

/-- **When `SFENCE.VMA` with an address removes all that comes from its leaf entry.** In every state that
translations, changes of context and flushes reach from empty TLBs: iff neither TLB holds another page with
that leaf entry. -/
theorem sfence_removes_iff {env : SysEnv} {s₀ s : Sys} (hempty : s₀.tlbFlushAll = s₀) (hrun : MmuReach env s₀ s)
    (vaddr : Word) : LeafRemoved env s vaddr ↔ ¬ HeldElsewhere env s vaddr := by
  have hc : Coherent env s := by
    refine hrun.coherent ?_
    rw [← hempty]
    exact coherent_flushed env s₀
  have hslot : Slotted s := by
    refine hrun.slotted ?_
    rw [← hempty]
    exact ⟨Tlb.slotted_empty, Tlb.slotted_empty⟩
  constructor
  · rintro h ⟨vaddr', hne, hsome, hsame, hheld⟩
    obtain ⟨⟨pteAddr, level'⟩, hwalk'⟩ := Option.isSome_iff_exists.mp hsome
    have hfst : (mmuWalk env s.cpu vaddr').map Prod.fst = some pteAddr := by
      rw [hwalk']
      rfl
    obtain ⟨⟨pteAddr', level⟩, hwalk, hpte⟩ := Option.map_eq_some_iff.mp (hsame.symm.trans hfst)
    obtain rfl : pteAddr' = pteAddr := hpte
    obtain ⟨hd, hi⟩ := h pteAddr' level hwalk
    rcases hheld with hheld | hheld
    · exact (hc.dtlb.without_iff hslot.dtlb).mp hd vaddr' hne hfst hheld
    · exact (hc.itlb.without_iff hslot.itlb).mp hi vaddr' hne hfst hheld
  · intro h pteAddr level hwalk
    have hnot : ∀ vaddr' : Word, vaddr' >>> 12 ≠ vaddr >>> 12 → (mmuWalk env s.cpu vaddr').map Prod.fst = some pteAddr →
        ¬ (s.dtlb.Holds vaddr' ∨ s.itlb.Holds vaddr') := by
      intro vaddr' hne hfst hheld
      obtain ⟨leaf, hleaf, -⟩ := Option.map_eq_some_iff.mp hfst
      refine h ⟨vaddr', hne, by rw [hleaf]; rfl, ?_, hheld⟩
      rw [hfst, hwalk]
      rfl
    refine ⟨(hc.dtlb.without_iff hslot.dtlb).mpr fun vaddr' hne hfst hheld => ?_,
      (hc.itlb.without_iff hslot.itlb).mpr fun vaddr' hne hfst hheld => ?_⟩
    · exact hnot vaddr' hne hfst (.inl hheld)
    · exact hnot vaddr' hne hfst (.inr hheld)

/-- U-mode, under a table at `0x4000` that lets the user read the first 4 MiB. -/
def superpage : Sys :=
  let zero := Cpu.zero (Mem.writeW (fun _ => 0) 0x4000 0x13)
  { cpu := { zero with privMode := 0, csr := { zero.csr with satp := 0x80000004 } } }

def superpageTwice : Sys := (superpage.fillDtlb 0x100 .read 0x4000 1).fillDtlb 0x1100 .read 0x4000 1

theorem superpage_once : MmuReach deviceless superpage (superpage.fillDtlb 0x100 .read 0x4000 1) :=
  .single (.retry ⟨by decide, by decide⟩)

theorem superpage_twice : MmuReach deviceless superpage superpageTwice :=
  .tail superpage_once (.retry ⟨by decide, by decide⟩)

theorem sfence_removes_once :
    superpage.tlbFlushAll = superpage ∧ MmuReach deviceless superpage (superpage.fillDtlb 0x100 .read 0x4000 1) ∧
      (LeafRemoved deviceless (superpage.fillDtlb 0x100 .read 0x4000 1) 0x100 ↔
        ¬ HeldElsewhere deviceless (superpage.fillDtlb 0x100 .read 0x4000 1) 0x100) :=
  ⟨rfl, superpage_once, sfence_removes_iff rfl superpage_once 0x100⟩

/-- After a flush of the first page the translation of the second is still there, from the same entry. -/
theorem superpage_survives :
    superpage.tlbFlushAll = superpage ∧ MmuReach deviceless superpage superpageTwice ∧
      mmuWalk deviceless superpageTwice.cpu 0x100 = some (0x4000, 1) ∧
      ((superpageTwice.tlbFlush 0x100).dtlb 1).valid = true ∧
      ((superpageTwice.tlbFlush 0x100).dtlb 1).pteAddr = 0x4000 ∧ ¬ LeafRemoved deviceless superpageTwice 0x100 := by
  have hwalk : mmuWalk deviceless superpageTwice.cpu 0x100 = some (0x4000, 1) := by decide
  have hvalid : ((superpageTwice.tlbFlush 0x100).dtlb 1).valid = true := by decide
  have hpte : ((superpageTwice.tlbFlush 0x100).dtlb 1).pteAddr = 0x4000 := by decide
  exact ⟨rfl, superpage_twice, hwalk, hvalid, hpte, fun h => (h _ _ hwalk).1 1 hvalid hpte⟩

end Rv32emu
