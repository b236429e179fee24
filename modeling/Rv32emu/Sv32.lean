import Rv32emu.Mmu

/-!
# The permission checks of Sv32

What the privileged specification says about a leaf page-table entry (`Sv32Allows`), against what
`mmu_ifetch_fault_check`, `mmu_read_fault_check` and `mmu_write_fault_check` accept. The three functions are
one macro, so that the check of the permission bit comes before the one that knows about `MXR`, and the check
of `SUM` does not know about fetches; nothing looks at U-mode.
-/

namespace Rv32emu

def Pte.Has (pte bit : Word) : Prop := pte &&& bit ≠ 0

instance (pte bit : Word) : Decidable (Pte.Has pte bit) := inferInstanceAs (Decidable (_ ≠ _))

/-- The bits of `sstatus` that the rule depends on. -/
def Cpu.mxr (s : Cpu) : Prop := s.csr.sstatus &&& 0x80000 ≠ 0

def Cpu.sum (s : Cpu) : Prop := s.csr.sstatus &&& 0x40000 ≠ 0

/-- The rule of the privileged specification for a leaf entry in U-mode and in S-mode. -/
structure Sv32Allows (s : Cpu) (access : Access) (pte : Word) : Prop where
  valid : Pte.Has pte Pte.V
  permission : Pte.Has pte access.bit ∨ access = .read ∧ s.mxr ∧ Pte.Has pte Pte.X
  user : s.privMode = 0 → Pte.Has pte Pte.U
  supervisor : s.privMode = 1 → Pte.Has pte Pte.U → access ≠ .fetch ∧ s.sum

inductive Sv32Deviates (s : Cpu) (access : Access) (pte : Word) : Prop
  /-- A page of the kernel is open to U-mode. -/
  | user (hmode : s.privMode = 0) (hu : ¬ Pte.Has pte Pte.U) (hv : Pte.Has pte Pte.V)
      (hbit : Pte.Has pte access.bit)
  /-- `SUM` opens the pages of the user to fetches. -/
  | fetch (hmode : s.privMode = 1) (haccess : access = .fetch) (hu : Pte.Has pte Pte.U) (hsum : s.sum)
      (hv : Pte.Has pte Pte.V) (hx : Pte.Has pte Pte.X)
  /-- `MXR` does not open a page that can only be executed. -/
  | mxr (haccess : access = .read) (hmxr : s.mxr) (hv : Pte.Has pte Pte.V) (hr : ¬ Pte.Has pte Pte.R)
      (hx : Pte.Has pte Pte.X) (huser : s.privMode = 0 → Pte.Has pte Pte.U)
      (hsuper : s.privMode = 1 → Pte.Has pte Pte.U → s.sum)

def FaultCheckAccepts (raise : Raise) (access : Access) (pteAddr : Word) (level : Nat) (vaddr : Word)
    (s : Sys) : Prop :=
  ∃ s', mmuFaultCheck raise access (some (pteAddr, level)) vaddr s = some (true, s')

theorem pteFaults_iff (s : Cpu) (access : Access) (pte : Word) :
    pteFaults s access pte = false ↔
      Pte.Has pte Pte.V ∧ Pte.Has pte access.bit ∧ (s.privMode = 1 → Pte.Has pte Pte.U → s.sum) := by
  unfold pteFaults
  have hread : access = .read → access.bit = Pte.R := by
    rintro rfl
    rfl
  simp only [Pte.Has, Cpu.sum, decide_eq_false_iff_not, not_or, not_and]
  constructor
  · rintro ⟨hv, hbit, -, -, hu⟩
    refine ⟨hv, hbit, fun hmode huser => ?_⟩
    exact Classical.byContradiction fun hsum => hu hmode hsum huser
  · rintro ⟨hv, hbit, hu⟩
    refine ⟨hv, hbit, fun _ hr haccess => ?_, fun _ hrx haccess => ?_, fun hmode hsum huser => ?_⟩
    · rw [hread haccess] at hbit
      exact hbit hr
    · rw [hread haccess] at hbit
      exact hbit (BitVec.or_eq_zero_iff.mp hrx).1
    · exact hsum (hu hmode huser)

theorem faultCheckAccepts_iff (raise : Raise) (access : Access) (pteAddr : Word) (level : Nat)
    (vaddr : Word) (s : Sys) :
    FaultCheckAccepts raise access pteAddr level vaddr s ↔
      pteFaults s.cpu access (s.cpu.memReadW pteAddr) = false := by
  have hrun : mmuFaultCheck raise access (some (pteAddr, level)) vaddr s =
      if pteFaults s.cpu access (s.cpu.memReadW pteAddr) then
        (raise access.pagefault vaddr s).bind fun r => some (false, r.2)
      else some (true, s) := by
    unfold mmuFaultCheck
    simp only [bind, StateT.bind, get, getThe, MonadStateOf.get, StateT.get, pure, Option.bind_some]
    split_ifs <;> rfl
  unfold FaultCheckAccepts
  rw [hrun]
  cases pteFaults s.cpu access (s.cpu.memReadW pteAddr) with
  | false => exact iff_of_true ⟨s, rfl⟩ rfl
  | true =>
    refine iff_of_false ?_ Bool.noConfusion
    rintro ⟨s', hs'⟩
    cases hraise : raise access.pagefault vaddr s with
    | none => simp [hraise] at hs'
    | some r => simp [hraise] at hs'

/-- **Where the permission checks follow the specification.** -/
theorem faultCheck_matches_iff (raise : Raise) (access : Access) (pteAddr : Word) (level : Nat)
    (vaddr : Word) (s : Sys) :
    (FaultCheckAccepts raise access pteAddr level vaddr s ↔
        Sv32Allows s.cpu access (s.cpu.memReadW pteAddr)) ↔
      ¬ Sv32Deviates s.cpu access (s.cpu.memReadW pteAddr) := by
  rw [faultCheckAccepts_iff, pteFaults_iff]
  generalize s.cpu.memReadW pteAddr = pte
  constructor
  · intro h hdev
    cases hdev with
    | user hm hu hv hbit =>
      have hs : s.cpu.privMode ≠ 1 := by
        rw [hm]
        decide
      exact hu ((h.mp ⟨hv, hbit, fun h1 => absurd h1 hs⟩).user hm)
    | fetch hm haccess hu hsum hv hx =>
      have hbit : Pte.Has pte access.bit := by
        rw [haccess]
        exact hx
      exact ((h.mp ⟨hv, hbit, fun _ _ => hsum⟩).supervisor hm hu).1 haccess
    | mxr haccess hmxr hv hr hx huser hsuper =>
      have hallow : Sv32Allows s.cpu access pte := by
        refine ⟨hv, .inr ⟨haccess, hmxr, hx⟩, huser, fun hm hu => ⟨?_, hsuper hm hu⟩⟩
        rw [haccess]
        decide
      have hbit := (h.mpr hallow).2.1
      rw [haccess] at hbit
      exact hr hbit
  · intro hdev
    constructor
    · rintro ⟨hv, hbit, hu⟩
      refine ⟨hv, .inl hbit, fun hm => ?_, fun hm huser => ⟨fun haccess => ?_, hu hm huser⟩⟩
      · exact Classical.byContradiction fun hno => hdev (.user hm hno hv hbit)
      · refine hdev (.fetch hm haccess huser (hu hm huser) hv ?_)
        rw [haccess] at hbit
        exact hbit
    · rintro ⟨hv, hperm, huser, hsuper⟩
      have hbit : Pte.Has pte access.bit := by
        rcases hperm with hbit | ⟨haccess, hmxr, hx⟩
        · exact hbit
        · rw [haccess]
          exact Classical.byContradiction fun hr =>
            hdev (.mxr haccess hmxr hv hr hx huser fun hm hu => (hsuper hm hu).2)
      exact ⟨hv, hbit, fun hm hu => (hsuper hm hu).2⟩

/-- A program in U-mode, and an entry for a page of the kernel that can be read. -/
def userReads : Sys := { cpu := { Cpu.zero (Mem.writeW (fun _ => 0) 0 0x3) with privMode := 0 } }

/-- A load from U-mode reaches the page of the kernel. -/
theorem faultCheck_accepts_kernel_page :
    userReads.cpu.privMode = 0 ∧ ¬ Pte.Has (userReads.cpu.memReadW 0) Pte.U ∧
      ¬ Sv32Allows userReads.cpu .read (userReads.cpu.memReadW 0) ∧
      ∀ raise level vaddr, FaultCheckAccepts raise .read 0 level vaddr userReads := by
  have hu : ¬ Pte.Has (userReads.cpu.memReadW 0) Pte.U := by decide
  refine ⟨rfl, hu, fun h => hu (h.user rfl), fun raise level vaddr => ?_⟩
  rw [faultCheckAccepts_iff]
  decide

end Rv32emu
