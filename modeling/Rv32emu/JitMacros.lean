import Rv32emu.JitAllocSound
import Rv32emu.JitGen
import Rv32emu.T2cAgree

/-!
# The macros of `rv32_jit.c` keep the invariant

What each macro does to the VM registers and to the guest's memory, for every register map that `Holds`: the value
that the code computes, and that everything else is as before.

* `triple_aluImm`, `triple_aluReg`, `triple_sltImm`, … : the macros that set a register;
* `triple_mulDiv`, `triple_mulHigh`, `triple_divRem` : the sequence of `muldivmod` under the invariant;
* `triple_load`, `triple_store` : accesses to the guest's memory.
-/

namespace Rv32emu.Tier1

open X64 (Emitter lo zx)
open X64.Emitter (emit Triple)

section

variable {L : Layout} {R : Rep} {X : Reg → Word} {mem : Mem} {P : Set Reg} {m : RegMap} {s : X64.State}
  {i : HostIdx} {r : Reg} {queue : List Reg} (hq : ∀ r, r ∈ queue)

/-! ## The register of a result -/

include hq in
/-- The register for a result, with the registers of the operands as they are. -/
theorem exec_mapResult (h : Holds L R X mem ∅ m s) (reserved : List X64.Reg) (hres : reserved.length ≤ 2) (r : Reg) :
    ∃ i m' hm, (mapVmRegBut queue reserved r).exec m s = some (hostReg i, m', withMem s hm) ∧
      m'.vmReg i = some r ∧ Holds L R X mem {r} m' (withMem s hm) ∧
      ∀ {k q}, m.vmReg k = some q → hostReg k ∈ reserved → m'.vmReg k = some q := by
  obtain ⟨i, m', hm, hx, hmap, h'⟩ := exec_mapVmRegBut hq h reserved hres (by simp) r
  refine ⟨i, m', hm, hx, hmap.mapped, h'.mono ?_, fun {k q} hk hr => ?_⟩
  · rintro q (hq | hq)
    · exact hq.elim
    · exact hq.1
  · by_cases hki : k = i
    · by_cases hmapped : m.Mapped r
      · rwa [hmap.old hmapped]
      · exact absurd (hki ▸ hr) (hmap.new hmapped).2
    · rwa [hmap.vmReg hki]

/-- The register of a result gets its value, and its entry is marked. -/
theorem Holds.result (h : Holds L R X mem {r} m s) (hi : m.vmReg i = some r) (hr : r ≠ regZero) {s' : X64.State}
    {x : Word} (hv : R.holds (s'.regs (hostReg i)) x)
    (hregs : ∀ q, q ≠ hostReg i → q ≠ tempReg → s'.regs q = s.regs q) (hmem : s'.mem = s.mem)
    (hstack : s'.stack = s.stack) :
    Holds L R (Function.update X r x) mem ∅ (m.setDirty (hostReg i) true) s' :=
  h.write hi (fun _ hq => hq) hr hv hregs hmem hstack

theorem Holds.inPlace (h : Holds L R X mem ∅ m s) (hi : m.vmReg i = some r) (hr : r ≠ regZero) {s' : X64.State}
    {x : Word} (hv : R.holds (s'.regs (hostReg i)) x)
    (hregs : ∀ q, q ≠ hostReg i → q ≠ tempReg → s'.regs q = s.regs q) (hmem : s'.mem = s.mem)
    (hstack : s'.stack = s.stack) :
    Holds L R (Function.update X r x) mem ∅ (m.setDirty (hostReg i) true) s' :=
  h.write hi (fun _ hq => hq.elim) hr hv hregs hmem hstack

theorem setDirty_mark (m : RegMap) (i : HostIdx) (mark : Bool) :
    (if mark then m.setDirty (hostReg i) true else m).setDirty (hostReg i) true = m.setDirty (hostReg i) true := by
  cases mark with
  | false => rfl
  | true => exact m.setDirty_setDirty _ _ _

include hq

/-! ## One operand -/

theorem exec_loadConst (h : Holds L R X mem ∅ m s) (hr : r ≠ regZero) (imm : Word) :
    ∃ m' s', (loadConst queue r imm).exec m s = some ((), m', s') ∧
      Holds L R (Function.update X r imm) mem ∅ m' s' ∧ s'.regs tempReg = s.regs tempReg := by
  obtain ⟨i, m1, hm, hx, hi, h1, _⟩ := exec_mapResult hq h [] (by decide) r
  have hexec : (loadConst queue r imm).exec m s =
      some ((), m1.setDirty (hostReg i) true, (withMem s hm).set (hostReg i) (zx imm)) := by
    simp [loadConst, mapVmReg, hx]
  refine ⟨_, _, hexec, h1.result hi hr ?_ (fun q hqi _ => by simp [hqi]) rfl rfl, ?_⟩
  · rw [X64.State.set_regs, Function.update_self]
    exact R.zx imm
  · rw [X64.State.set_regs, Function.update_of_ne (hostReg_ne_tempReg i).symm]

theorem triple_loadConst (hr : r ≠ regZero) (imm : Word) :
    Triple (Holds L R X mem ∅) (loadConst queue r imm) fun _ => Holds L R (Function.update X r imm) mem ∅ := by
  intro m s h
  obtain ⟨m', s', hx, h', _⟩ := exec_loadConst hq h hr imm
  exact ⟨(), m', s', hx, h'⟩

/-- What the macros with one source register start with: the operand in the register of the result. -/
theorem exec_moved (h : Holds L R X mem ∅ m s) (rs1 rd : Reg) {α : Type} (rest : X64.Reg → Gen α) :
    ∃ (i : HostIdx) (m1 : RegMap) (s1 s2 : X64.State) (mark : Bool), (do
        let v0 ← raLoad queue rs1
        let v1 ← mapVmRegReserved queue rd v0
        if v0 ≠ v1 then emitMov v0 v1
        rest v1 : Gen α).exec m s =
          (rest (hostReg i)).exec (if mark then m1.setDirty (hostReg i) true else m1) s2 ∧
      m1.vmReg i = some rd ∧ Holds L R X mem {rd} m1 s1 ∧ R.holds (s2.regs (hostReg i)) (X rs1) ∧
      (∀ q, q ≠ hostReg i → s2.regs q = s1.regs q) ∧ s2.mem = s1.mem ∧ s2.stack = s1.stack := by
  obtain ⟨i0, m0, s0, hx0, hi0, h0, _⟩ := exec_raLoad hq h rs1
  obtain ⟨i, m1, hm, hx, hi, h1, _⟩ := exec_mapResult hq h0 [hostReg i0] (by simp) rd
  have hv : R.holds (s0.regs (hostReg i0)) (X rs1) := h0.value hi0 (Set.notMem_empty _)
  by_cases hne : i0 = i
  · subst hne
    refine ⟨i0, m1, withMem s0 hm, withMem s0 hm, false, ?_, hi, h1, hv, fun _ _ => rfl, rfl, rfl⟩
    simp [mapVmRegReserved, hx0, hx]
  · refine ⟨i, m1, withMem s0 hm, (withMem s0 hm).set (hostReg i) (s0.regs (hostReg i0)), true, ?_, hi, h1, ?_,
      fun q hqi => by simp [hqi], rfl, rfl⟩
    · simp [mapVmRegReserved, hx0, hx, hostReg_injective.eq_iff, hne]
    · rwa [X64.State.set_regs, Function.update_self]

theorem triple_aluImm {op : X64.Alu} {f : Word → Word → Word} (hop : ∀ x y, op.result x y = some (f x y)) (rs1 : Reg)
    {rd : Reg} (hr : rd ≠ regZero) (imm : Word) :
    Triple (Holds L R X mem ∅) (aluImm queue op rs1 rd imm) fun _ =>
      Holds L R (Function.update X rd (f (X rs1) imm)) mem ∅ := by
  intro m s h
  obtain ⟨i, m1, s1, s2, mark, hx, hi, h1, hv, hregs, hmem, hstack⟩ :=
    exec_moved hq h rs1 rd fun v1 => emitAlu32Imm32 op v1 imm
  rw [exec_emitAlu32Imm32, setDirty_mark, X64.Alu.apply_of_result (hop _ _), R.lo_eq hv] at hx
  refine ⟨(), _, _, hx, h1.result hi hr ?_ (fun q hqi _ => ?_) hmem hstack⟩
  · rw [X64.State.set_regs, Function.update_self]
    exact R.zx _
  · rw [X64.State.set_regs, Function.update_of_ne hqi]
    exact hregs q hqi

theorem triple_shiftImm (op : X64.Shift) (rs1 : Reg) {rd : Reg} (hr : rd ≠ regZero) (imm : Word) :
    Triple (Holds L R X mem ∅) (shiftImm queue op rs1 rd imm) fun _ =>
      Holds L R (Function.update X rd (op.eval (X rs1) ((imm &&& 0x1f).setWidth 8))) mem ∅ := by
  intro m s h
  obtain ⟨i, m1, s1, s2, mark, hx, hi, h1, hv, hregs, hmem, hstack⟩ :=
    exec_moved hq h rs1 rd fun v1 => emitShiftImm8 op v1 ((imm &&& 0x1f).setWidth 8)
  rw [exec_emitShiftImm8, setDirty_mark, X64.Shift.apply, R.lo_eq hv] at hx
  refine ⟨(), _, _, hx, h1.result hi hr ?_ (fun q hqi _ => ?_) hmem hstack⟩
  · rw [X64.State.set_regs, Function.update_self]
    exact R.zx _
  · rw [X64.State.set_regs, Function.update_of_ne hqi]
    exact hregs q hqi

theorem triple_move (rs2 : Reg) {rd : Reg} (hr : rd ≠ regZero) :
    Triple (Holds L R X mem ∅) (move queue rs2 rd) fun _ => Holds L R (Function.update X rd (X rs2)) mem ∅ := by
  intro m s h
  obtain ⟨i0, m0, s0, hx0, hi0, h0, _⟩ := exec_raLoad hq h rs2
  obtain ⟨i, m1, hm, hx, hi, h1, _⟩ := exec_mapResult hq h0 [hostReg i0] (by simp) rd
  have hv : R.holds (s0.regs (hostReg i0)) (X rs2) := h0.value hi0 (Set.notMem_empty _)
  by_cases hne : i0 = i
  · subst hne
    have hexec : (move queue rs2 rd).exec m s = some ((), m1.setDirty (hostReg i0) true, withMem s0 hm) := by
      simp [move, mapVmRegReserved, hx0, hx]
    exact ⟨(), _, _, hexec, h1.result hi hr hv (fun _ _ _ => rfl) rfl rfl⟩
  · have hexec : (move queue rs2 rd).exec m s =
        some ((), m1.setDirty (hostReg i) true, (withMem s0 hm).set (hostReg i) (s0.regs (hostReg i0))) := by
      simp [move, mapVmRegReserved, hx0, hx, hostReg_injective.eq_iff, hne]
    refine ⟨(), _, _, hexec, h1.result hi hr ?_ (fun q hqi _ => by simp [hqi]) rfl rfl⟩
    rwa [X64.State.set_regs, Function.update_self]

theorem triple_aluInPlace {op : X64.Alu} {f : Word → Word → Word} (hop : ∀ x y, op.result x y = some (f x y))
    (hr : r ≠ regZero) (imm : Word) :
    Triple (Holds L R X mem ∅) (aluInPlace queue op r imm) fun _ =>
      Holds L R (Function.update X r (f (X r) imm)) mem ∅ := by
  intro m s h
  obtain ⟨i, m0, s0, hx0, hi, h0, _⟩ := exec_raLoad hq h r
  have hexec : (aluInPlace queue op r imm).exec m s =
      some ((), m0.setDirty (hostReg i) true, op.apply (hostReg i) imm s0) := by
    simp [aluInPlace, hx0]
  rw [X64.Alu.apply_of_result (hop _ _), h0.lo_value hi (Set.notMem_empty _)] at hexec
  refine ⟨(), _, _, hexec, h0.inPlace hi hr ?_ (fun q hqi _ => by simp [hqi]) rfl rfl⟩
  rw [X64.State.set_regs, Function.update_self]
  exact R.zx _

theorem triple_shiftInPlace (op : X64.Shift) (hr : r ≠ regZero) (n : BitVec 8) :
    Triple (Holds L R X mem ∅) (shiftInPlace queue op r n) fun _ =>
      Holds L R (Function.update X r (op.eval (X r) n)) mem ∅ := by
  intro m s h
  obtain ⟨i, m0, s0, hx0, hi, h0, _⟩ := exec_raLoad hq h r
  have hexec : (shiftInPlace queue op r n).exec m s =
      some ((), m0.setDirty (hostReg i) true, op.apply (hostReg i) n s0) := by
    simp [shiftInPlace, hx0]
  rw [X64.Shift.apply, h0.lo_value hi (Set.notMem_empty _)] at hexec
  refine ⟨(), _, _, hexec, h0.inPlace hi hr ?_ (fun q hqi _ => by simp [hqi]) rfl rfl⟩
  rw [X64.State.set_regs, Function.update_self]
  exact R.zx _

omit hq in
/-- A comparison changes the flags; its first operand is marked as if it had been written. -/
theorem exec_compared (h : Holds L R X mem P m s) (hi : m.vmReg i = some r) (hr : r ∉ P) (y : Word) :
    Holds L R X mem P (m.setDirty (hostReg i) true) (X64.Alu.cmp.apply (hostReg i) y s) ∧
      (X64.Alu.cmp.apply (hostReg i) y s).flags = some (X64.subFlags (X r) y) := by
  rw [X64.Alu.cmp_apply, h.lo_value hi hr]
  exact ⟨(h.setDirty hi).set_flags _, rfl⟩

omit hq in
theorem exec_setCond (h : Holds L R X mem {r} m s) (hi : m.vmReg i = some r) (hr : r ≠ regZero) (c : X64.Cond)
    {x y : Word} (hf : s.flags = some (X64.subFlags x y)) :
    ∃ m' s', (setCond c (hostReg i)).exec m s = some ((), m', s') ∧
      Holds L R (Function.update X r (ofCond (c.eval x y))) mem ∅ m' s' := by
  have hm : (emitLoadImm (hostReg i) 0) (m.setDirty (hostReg i) true) =
      some ((), m.setDirty (hostReg i) true, [.instr (.movImm32 (hostReg i) 0)]) := by
    rw [← m.setDirty_setDirty (hostReg i) true true]
    simp only [RegMap.setDirty_setDirty]
    exact congrArg some (Prod.ext rfl (Prod.ext (m.setDirty_setDirty _ _ _) rfl))
  have hx : (setCond c (hostReg i)).exec m s = some ((), m.setDirty (hostReg i) true,
      if c.eval x y then s.set (hostReg i) (zx 1) else (s.set (hostReg i) (zx 1)).set (hostReg i) (zx 0)) := by
    rw [setCond, Emitter.exec_bind, exec_emitLoadImm, Option.bind_some,
      Emitter.exec_skip c _ _ (s.set (hostReg i) (zx 1)) (X64.subFlags x y) hf, X64.Cond.holds_subFlags, hm,
      exec_emitLoadImm,
      RegMap.setDirty_setDirty]
    cases c.eval x y <;> rfl
  refine ⟨_, _, hx, h.result hi hr ?_ (fun q hqi _ => ?_) ?_ ?_⟩
  · cases c.eval x y with
    | true =>
      rw [if_pos rfl, X64.State.set_regs, Function.update_self]
      exact R.zx 1
    | false =>
      rw [if_neg Bool.false_ne_true, X64.State.set_regs, Function.update_self]
      exact R.zx 0
  · cases c.eval x y <;> simp [hqi]
  · cases c.eval x y <;> rfl
  · cases c.eval x y <;> rfl

theorem triple_sltImm (c : X64.Cond) (rs1 : Reg) {rd : Reg} (hr : rd ≠ regZero) (imm : Word) :
    Triple (Holds L R X mem ∅) (sltImm queue c rs1 rd imm) fun _ =>
      Holds L R (Function.update X rd (ofCond (c.eval (X rs1) imm))) mem ∅ := by
  intro m s h
  obtain ⟨i0, m0, s0, hx0, hi0, h0, _⟩ := exec_raLoad hq h rs1
  obtain ⟨h1, hf⟩ := exec_compared h0 hi0 (Set.notMem_empty _) imm
  obtain ⟨i, m2, hm, hx, hi, h2, _⟩ := exec_mapResult hq h1 [hostReg i0] (by simp) rd
  obtain ⟨m3, s3, hx3, h3⟩ := exec_setCond h2 hi hr c hf
  refine ⟨(), m3, s3, ?_, h3⟩
  rw [sltImm, Emitter.exec_bind, hx0, Option.bind_some, Emitter.exec_bind, exec_emitCmpImm32, Option.bind_some,
    Emitter.exec_bind, mapVmRegReserved, hx, Option.bind_some, hx3]

/-! ## Two operands -/

/-- What the macros with two source registers start with. -/
theorem exec_loaded2 (h : Holds L R X mem ∅ m s) (rs1 rs2 rd : Reg) {sext : Bool} (hsext : sext = true → R.Wide) :
    ∃ i0 i1 i2 m1 s1 m2 hm, (raLoad2Sext queue rs1 rs2 sext sext).exec m s =
        some ((hostReg i0, hostReg i1), m1, s1) ∧
      (mapVmRegReserved2 queue rd (hostReg i0) (hostReg i1)).exec m1 s1 = some (hostReg i2, m2, withMem s1 hm) ∧
      m2.vmReg i0 = some rs1 ∧ m2.vmReg i1 = some rs2 ∧ m2.vmReg i2 = some rd ∧
      Holds L R X mem {rd} m2 (withMem s1 hm) ∧
      R.holds (s1.regs (hostReg i0)) (X rs1) ∧ R.holds (s1.regs (hostReg i1)) (X rs2) ∧
      (sext = true →
        s1.regs (hostReg i0) = (X rs1).signExtend 64 ∧ s1.regs (hostReg i1) = (X rs2).signExtend 64) := by
  obtain ⟨i0, i1, m1, s1, hx1, hi0, hi1, h1, _, hs⟩ := exec_raLoad2Sext hq h rs1 rs2 hsext
  obtain ⟨i2, m2, hm, hx2, hi2, h2, hkeep⟩ :=
    exec_mapResult hq h1 [hostReg i0, hostReg i1] (by simp) rd
  exact ⟨i0, i1, i2, m1, s1, m2, hm, hx1, hx2, hkeep hi0 (by simp), hkeep hi1 (by simp), hi2, h2,
    h1.value hi0 (Set.notMem_empty _), h1.value hi1 (Set.notMem_empty _), hs⟩

theorem exec_operands (h : Holds L R X mem ∅ m s) (rs1 rs2 rd : Reg) :
    ∃ i m1 s1 s2, (operands queue rs1 rs2 rd).exec m s = some (hostReg i, m1.setDirty (hostReg i) true, s2) ∧
      m1.vmReg i = some rd ∧ Holds L R X mem {rd} m1 s1 ∧ R.holds (s2.regs (hostReg i)) (X rs1) ∧
      R.holds (s2.regs tempReg) (X rs2) ∧
      (∀ q, q ≠ hostReg i → q ≠ tempReg → s2.regs q = s1.regs q) ∧ s2.mem = s1.mem ∧ s2.stack = s1.stack := by
  obtain ⟨i0, i1, i2, m1, s1, m2, hm, hx1, hx2, _, _, hi2, h2, hv0, hv1, _⟩ :=
    exec_loaded2 hq h rs1 rs2 rd R.wide_of_false
  have hne : hostReg i0 ≠ .rcx := hostReg_ne_tempReg i0
  refine ⟨i2, m2, withMem s1 hm, ((withMem s1 hm).set tempReg (s1.regs (hostReg i1))).set (hostReg i2)
    (s1.regs (hostReg i0)), ?_, hi2, h2, ?_, ?_, fun q hqi hqt => by simp [hqi, hqt], rfl, rfl⟩
  · rw [operands, raLoad2, Emitter.exec_bind, hx1, Option.bind_some, Emitter.exec_bind, hx2]
    simp [tempReg, hne]
  · rwa [X64.State.set_regs, Function.update_self]
  · rwa [X64.State.set_regs, Function.update_of_ne (hostReg_ne_tempReg i2).symm, X64.State.set_regs,
      Function.update_self]

theorem triple_aluReg {op : X64.Alu} {f : Word → Word → Word} (hop : ∀ x y, op.result x y = some (f x y))
    (rs1 rs2 : Reg) {rd : Reg} (hr : rd ≠ regZero) :
    Triple (Holds L R X mem ∅) (aluReg queue op rs1 rs2 rd) fun _ =>
      Holds L R (Function.update X rd (f (X rs1) (X rs2))) mem ∅ := by
  intro m s h
  obtain ⟨i, m1, s1, s2, hx, hi, h1, hv1, hv2, hregs, hmem, hstack⟩ := exec_operands hq h rs1 rs2 rd
  have hexec : (aluReg queue op rs1 rs2 rd).exec m s =
      some ((), m1.setDirty (hostReg i) true, op.apply (hostReg i) (lo (s2.regs tempReg)) s2) := by
    simp [aluReg, hx]
  rw [X64.Alu.apply_of_result (hop _ _), R.lo_eq hv1, R.lo_eq hv2] at hexec
  refine ⟨(), _, _, hexec, h1.result hi hr ?_ (fun q hqi hqt => ?_) hmem hstack⟩
  · rw [X64.State.set_regs, Function.update_self]
    exact R.zx _
  · rw [X64.State.set_regs, Function.update_of_ne hqi]
    exact hregs q hqi hqt

theorem triple_shiftReg (op : X64.Shift) (rs1 rs2 : Reg) {rd : Reg} (hr : rd ≠ regZero) :
    Triple (Holds L R X mem ∅) (shiftReg queue op rs1 rs2 rd) fun _ =>
      Holds L R (Function.update X rd (op.eval (X rs1) ((X rs2 &&& 0x1f).setWidth 8))) mem ∅ := by
  intro m s h
  obtain ⟨i, m1, s1, s2, hx, hi, h1, hv1, hv2, hregs, hmem, hstack⟩ := exec_operands hq h rs1 rs2 rd
  have hexec : (shiftReg queue op rs1 rs2 rd).exec m s = some ((), m1.setDirty (hostReg i) true,
      op.apply (hostReg i) ((zx (X rs2 &&& 0x1f)).setWidth 8)
        ({ s2 with flags := some (X64.Alu.and.flags (X rs2) 0x1f) }.set tempReg (zx (X rs2 &&& 0x1f)))) := by
    rw [shiftReg, Emitter.exec_bind, hx, Option.bind_some, Emitter.exec_bind, exec_emitAlu32Imm32, Option.bind_some,
      @X64.Alu.apply_of_result .and _ _ _ _ rfl, R.lo_eq hv2, exec_emitShiftCl]
    simp [tempReg]
  have hcl : (zx (X rs2 &&& 0x1f)).setWidth 8 = (X rs2 &&& 0x1f).setWidth 8 := by
    simp [zx]
  rw [hcl, X64.Shift.apply, X64.State.set_regs, Function.update_of_ne (hostReg_ne_tempReg i),
    R.lo_eq hv1] at hexec
  refine ⟨(), _, _, hexec, h1.result hi hr ?_ (fun q hqi hqt => ?_) hmem hstack⟩
  · rw [X64.State.set_regs, Function.update_self]
    exact R.zx _
  · simp [hqi, hqt, hregs q hqi hqt]

theorem triple_sltReg (c : X64.Cond) (rs1 rs2 : Reg) {rd : Reg} (hr : rd ≠ regZero) :
    Triple (Holds L R X mem ∅) (sltReg queue c rs1 rs2 rd) fun _ =>
      Holds L R (Function.update X rd (ofCond (c.eval (X rs1) (X rs2)))) mem ∅ := by
  intro m s h
  obtain ⟨i0, i1, i2, m1, s1, m2, hm, hx1, hx2, hi0, _, hi2, h2, hv0, hv1, _⟩ :=
    exec_loaded2 hq h rs1 rs2 rd R.wide_of_false
  have h2' : Holds L R X mem {rd} (m2.setDirty (hostReg i0) true)
      { (withMem s1 hm) with flags := some (X64.subFlags (X rs1) (X rs2)) } :=
    (h2.setDirty hi0).set_flags _
  obtain ⟨m3, s3, hx3, h3⟩ := exec_setCond h2' (by rwa [RegMap.setDirty_vmReg]) hr c rfl
  refine ⟨(), m3, s3, ?_, h3⟩
  rw [sltReg, raLoad2, Emitter.exec_bind, hx1, Option.bind_some, Emitter.exec_bind, hx2, Option.bind_some,
    Emitter.exec_bind, exec_emitCmp32, Option.bind_some, X64.Alu.cmp_apply, R.lo_eq hv0, R.lo_eq hv1, hx3]

/-! ## Multiplication and division -/

/-- Up to the sequence of `muldivmod`, with what it leaves in the register of the result. -/
theorem exec_mulDivmod (h : Holds L R X mem ∅ m s) (op : MulDiv) (sign : Bool) (rs1 rs2 rd : Reg) {sext : Bool}
    (hsext : sext = true → R.Wide) :
    ∃ i m1 s1 s2 a b, (∀ rest : X64.Reg → Gen Unit, (do
        let (v0, v1) ← raLoad2Sext queue rs1 rs2 sext sext
        let v2 ← mapVmRegReserved2 queue rd v0 v1
        genMulDiv op sign v0 v1 v2
        rest v2 : Gen Unit).exec m s = (rest (hostReg i)).exec (m1.setDirty (hostReg i) true) s2) ∧
      m1.vmReg i = some rd ∧ Holds L R X mem {rd} m1 s1 ∧ s2.regs (hostReg i) = op.result sign a b ∧
      R.holds a (X rs1) ∧ R.holds b (X rs2) ∧
      (sext = true → a = (X rs1).signExtend 64 ∧ b = (X rs2).signExtend 64) ∧
      (∀ q, q ≠ hostReg i → q ≠ tempReg → s2.regs q = s1.regs q) ∧ s2.mem = s1.mem ∧ s2.stack = s1.stack := by
  obtain ⟨i0, i1, i2, m1, s1, m2, hm, hx1, hx2, _, _, hi2, h2, hv0, hv1, hs⟩ := exec_loaded2 hq h rs1 rs2 rd hsext
  obtain ⟨s3, hx3, hv, hregs, hstack, hmem⟩ := exec_genMulDiv op sign m2 (withMem s1 hm) i0 i1 i2
  refine ⟨i2, m2, withMem s1 hm, s3, s1.regs (hostReg i0), s1.regs (hostReg i1), fun rest => ?_, hi2, h2, hv, hv0, hv1,
    hs, hregs, hmem, hstack⟩
  rw [Emitter.exec_bind, hx1, Option.bind_some, Emitter.exec_bind, hx2, Option.bind_some, Emitter.exec_bind, hx3,
    Option.bind_some]

omit hq in
theorem exec_bind_pure (e : Gen Unit) (m : RegMap) (s : X64.State) :
    (do e; pure () : Gen Unit).exec m s = e.exec m s := by
  rw [Emitter.exec_bind]
  cases e.exec m s with
  | none => rfl
  | some x => exact Emitter.exec_pure _ _ _

theorem triple_mulDiv (op : MulDiv) (rs1 rs2 : Reg) {rd : Reg} (hr : rd ≠ regZero) {x : Word}
    (hres : ∀ a b, R.holds a (X rs1) → R.holds b (X rs2) → R.holds (op.result false a b) x) :
    Triple (Holds L R X mem ∅) (mulDiv queue op rs1 rs2 rd) fun _ => Holds L R (Function.update X rd x) mem ∅ := by
  intro m s h
  obtain ⟨i, m1, s1, s2, a, b, hx, hi, h1, hv, ha, hb, _, hregs, hmem, hstack⟩ :=
    exec_mulDivmod hq h op false rs1 rs2 rd R.wide_of_false
  have hexec := hx fun _ => pure ()
  refine ⟨(), m1.setDirty (hostReg i) true, s2, ?_, h1.result hi hr ?_ hregs hmem hstack⟩
  · rw [← Emitter.exec_pure () (m1.setDirty (hostReg i) true) s2, ← hexec, ← exec_bind_pure]
    simp only [mulDiv, raLoad2, Emitter.exec_bind, Option.bind_assoc]
  · rw [hv]
    exact hres a b ha hb

theorem triple_divRem (hwide : R.Wide) (op : MulDiv) (rs1 rs2 : Reg) {rd : Reg} (hr : rd ≠ regZero) {x : Word}
    (hres : lo (op.result true ((X rs1).signExtend 64) ((X rs2).signExtend 64)) = x) :
    Triple (Holds L R X mem ∅) (divRem queue op rs1 rs2 rd) fun _ => Holds L R (Function.update X rd x) mem ∅ := by
  intro m s h
  obtain ⟨i, m1, s1, s2, a, b, hx, hi, h1, hv, _, _, hs, hregs, hmem, hstack⟩ :=
    exec_mulDivmod hq h op true rs1 rs2 rd fun (_ : true = true) => hwide
  have hexec := hx fun _ => pure ()
  refine ⟨(), m1.setDirty (hostReg i) true, s2, ?_, h1.result hi hr ?_ hregs hmem hstack⟩
  · rw [← Emitter.exec_pure () (m1.setDirty (hostReg i) true) s2, ← hexec, ← exec_bind_pure]
    simp only [divRem, Emitter.exec_bind, Option.bind_assoc]
  · rw [hv, (hs rfl).1, (hs rfl).2, ← hres]
    exact hwide _

omit hq in
theorem holds_shr32 (R : Rep) (p : BitVec 64) : R.holds (p >>> 32) ((p >>> 32).setWidth 32) := by
  have h : zx ((p >>> 32).setWidth 32) = p >>> 32 := by
    apply BitVec.eq_of_toNat_eq
    have hp := p.isLt
    rw [X64.toNat_zx, BitVec.toNat_setWidth, BitVec.toNat_ushiftRight, Nat.shiftRight_eq_div_pow]
    omega
  have hz := R.zx ((p >>> 32).setWidth 32)
  rwa [h] at hz

/-- `mulhu` and `mulh`, whose operands are extended as the product needs them. -/
theorem triple_mulHighOf {sext : Bool} (hsext : sext = true → R.Wide) (rs1 rs2 : Reg) {rd : Reg} (hr : rd ≠ regZero)
    {gen : Gen Unit} {x y : BitVec 64}
    (hgen : gen = do
      let (v0, v1) ← raLoad2Sext queue rs1 rs2 sext sext
      let v2 ← mapVmRegReserved2 queue rd v0 v1
      genMulDiv .mul64 false v0 v1 v2
      emitShr64Imm8 v2 32)
    (hops : ∀ a b, R.holds a (X rs1) → R.holds b (X rs2) →
      (sext = true → a = (X rs1).signExtend 64 ∧ b = (X rs2).signExtend 64) → a = x ∧ b = y) :
    Triple (Holds L R X mem ∅) gen fun _ =>
      Holds L R (Function.update X rd (((x * y) >>> 32).setWidth 32)) mem ∅ := by
  intro m s h
  obtain ⟨i, m1, s1, s2, a, b, hx, hi, h1, hv, ha, hb, hs, hregs, hmem, hstack⟩ :=
    exec_mulDivmod hq h .mul64 false rs1 rs2 rd hsext
  obtain ⟨rfl, rfl⟩ := hops a b ha hb hs
  have hexec := hx fun v2 => emitShr64Imm8 v2 32
  rw [← hgen, exec_emitShr64Imm8, RegMap.setDirty_setDirty] at hexec
  have hmul : MulDiv.result false a b .mul64 = a * b := by
    rw [MulDiv.result, BitVec.setWidth_mul _ _ (by decide), BitVec.setWidth_setWidth_of_le _ (by decide),
      BitVec.setWidth_setWidth_of_le _ (by decide), BitVec.setWidth_eq, BitVec.setWidth_eq]
  refine ⟨(), _, _, hexec, h1.result hi hr ?_ (fun q hqi hqt => ?_) hmem hstack⟩
  · rw [X64.State.set_regs, Function.update_self, hv, hmul]
    exact holds_shr32 R (a * b)
  · rw [X64.State.set_regs, Function.update_of_ne hqi]
    exact hregs q hqi hqt

theorem triple_mulHigh (hnarrow : R.Narrow) (rs1 rs2 : Reg) {rd : Reg} (hr : rd ≠ regZero) :
    Triple (Holds L R X mem ∅) (mulHigh queue rs1 rs2 rd) fun _ =>
      Holds L R (Function.update X rd (((zx (X rs1) * zx (X rs2)) >>> 32).setWidth 32)) mem ∅ :=
  triple_mulHighOf hq R.wide_of_false rs1 rs2 hr rfl
    fun _ _ ha hb _ => ⟨hnarrow ha, hnarrow hb⟩

theorem triple_mulHighSext (hwide : R.Wide) (rs1 rs2 : Reg) {rd : Reg} (hr : rd ≠ regZero) :
    Triple (Holds L R X mem ∅) (mulHighSext queue rs1 rs2 rd true true) fun _ =>
      Holds L R (Function.update X rd ((((X rs1).signExtend 64 * (X rs2).signExtend 64) >>> 32).setWidth 32)) mem ∅ :=
  triple_mulHighOf hq (fun _ => hwide) rs1 rs2 hr rfl fun _ _ _ _ hs => hs rfl

/-! ## Memory -/

omit hq in
theorem memOff_toNat (a : Word) : (memOff a).toNat = a.toNat := BitVec.toNat_setWidth_of_le (by decide)

omit hq in
theorem Holds.read (h : Holds L R X mem P m s) (w : X64.Width) {a : BitVec 64} (ha : a.toNat + w.size ≤ L.memSize) :
    w.read s.mem (L.memBase + a) = w.read mem a := by
  have hsize := L.memSize_le
  have hw : 0 < w.size := by cases w <;> decide
  have hbyte : ∀ k : BitVec 64, k.toNat < w.size → s.mem (L.memBase + a + k) = mem (a + k) := fun k hk => by
    rw [BitVec.add_assoc]
    refine h.guest _ ?_
    rw [BitVec.toNat_add]
    exact (Nat.mod_le _ _).trans_lt (by omega)
  have h0 : s.mem (L.memBase + a) = mem a := h.guest a (by omega)
  cases w with
  | s8 => rw [X64.Width.read, X64.Width.read, h0]
  | s16 => rw [X64.Width.read, X64.Width.read, h0, hbyte 1 (by decide)]
  | s32 => rw [X64.Width.read, X64.Width.read, h0, hbyte 1 (by decide), hbyte 2 (by decide), hbyte 3 (by decide)]

omit hq in
theorem Holds.written (h : Holds L R X mem P m s) (w : X64.Width) {a : BitVec 64} (v : Word)
    (ha : a.toNat + w.size ≤ L.memSize) :
    Holds L R X (w.write mem a v) P m (withMem s (w.write s.mem (L.memBase + a) v)) :=
  { h with
    slot := fun {r} hr hclean => (L.read_slot_write_guest w s.mem v r ha).trans (h.slot hr hclean)
    guest := fun off hoff => (w.write_shift s.mem L.memBase a off v).trans (w.write_congr (h.guest off hoff)) }

omit hq in
/-- The host's address of a guest address that does not wrap. -/
theorem add_memBase (mb : BitVec 64) {base imm : Word} (h : InRange base imm) :
    mb + imm.signExtend 64 + zx base = mb + memOff (base + imm) := by
  have hsub := hostAddr_sub mb h
  rw [← hsub, BitVec.add_comm mb (_ - _), BitVec.sub_add_cancel, hostAddr, BitVec.add_comm, BitVec.add_comm mb]
  rfl

/-- The address of an access is in the temporary register. -/
theorem exec_address (hnarrow : R.Narrow) (h : Holds L R X mem ∅ m s) (rs1 : Reg) (imm : Word)
    (hrange : InRange (X rs1) imm) :
    ∃ m' s', (address queue L.memBase rs1 imm).exec m s = some ((), m', s') ∧ Holds L R X mem ∅ m' s' ∧
      s'.regs tempReg = L.memBase + memOff (X rs1 + imm) := by
  obtain ⟨i, m0, s0, hx0, hi, h0, _⟩ := exec_raLoad hq h rs1
  have hv : s0.regs (hostReg i) = zx (X rs1) := hnarrow (h0.value hi (Set.notMem_empty _))
  have hne : hostReg i ≠ .rcx := hostReg_ne_tempReg i
  have hexec : (address queue L.memBase rs1 imm).exec m s = some ((), m0,
      { s0.set tempReg (L.memBase + imm.signExtend 64) with flags := none }.set tempReg
        (L.memBase + imm.signExtend 64 + zx (X rs1))) := by
    simp [address, hx0, tempReg, hne, hv]
  refine ⟨_, _, hexec, (h0.set_temp _ s0.flags).set_temp _ none, ?_⟩
  rw [X64.State.set_regs, Function.update_self]
  exact add_memBase L.memBase hrange

/-- A load from the address in the temporary register. -/
theorem exec_loadFrom (h : Holds L R X mem ∅ m s) (w : X64.Width) (sext : Bool) {rd : Reg} (hr : rd ≠ regZero)
    {a : BitVec 64} (ht : s.regs tempReg = L.memBase + a) (ha : a.toNat + w.size ≤ L.memSize) {x : Word}
    (hx : w.extend (w.read mem a) sext = zx x) :
    ∃ m' s', (do
        let v1 ← mapVmReg queue rd
        emitLoadAs sext w tempReg v1 0 : Gen Unit).exec m s = some ((), m', s') ∧
      Holds L R (Function.update X rd x) mem ∅ m' s' := by
  obtain ⟨i, m1, hm, hx1, hi, h1, _⟩ := exec_mapResult hq h [] (by decide) rd
  have haddr : (withMem s hm).addr tempReg 0 = L.memBase + a := by
    rw [X64.State.addr, ht]
    exact BitVec.add_zero _
  refine ⟨m1.setDirty (hostReg i) true, (withMem s hm).set (hostReg i) (zx x), ?_,
    h1.result hi hr ?_ (fun q hqi _ => by simp [hqi]) rfl rfl⟩
  · rw [Emitter.exec_bind, mapVmReg, hx1, Option.bind_some, exec_emitLoadAs _ _ _ (mapsX0_eq_false hi hr), haddr,
      h1.read w ha, hx]
    rfl
  · rw [X64.State.set_regs, Function.update_self]
    exact R.zx x

omit hq in
/-- A store to the address in the temporary register. -/
theorem exec_storeTo (h : Holds L R X mem ∅ m s) (w : X64.Width) (hi : m.vmReg i = some r) {a : BitVec 64}
    (ht : s.regs tempReg = L.memBase + a) (ha : a.toNat + w.size ≤ L.memSize) :
    ∃ m' s', (emitStore w (hostReg i) tempReg 0).exec m s = some ((), m', s') ∧
      Holds L R X (w.write mem a (X r)) ∅ m' s' := by
  have haddr : s.addr tempReg 0 = L.memBase + a := by
    rw [X64.State.addr, ht]
    exact BitVec.add_zero _
  by_cases hr : r = regZero
  · subst hr
    refine ⟨_, _, exec_emitStore_x0 _ _ _ ((m.mapsX0_hostReg i).mpr hi), ?_⟩
    rw [haddr, h.x0]
    exact (h.saved_x0 hi).written w 0 ha
  · refine ⟨_, _, exec_emitStore _ _ _ (mapsX0_eq_false hi hr), ?_⟩
    rw [if_pos rfl, haddr, h.lo_value hi (Set.notMem_empty _)]
    exact h.written w (X r) ha

theorem triple_load (hnarrow : R.Narrow) (w : X64.Width) (sext : Bool) (rs1 : Reg) {rd : Reg} (hr : rd ≠ regZero)
    (imm : Word) (hrange : InRange (X rs1) imm) (ha : (X rs1 + imm).toNat + w.size ≤ L.memSize) {x : Word}
    (hx : w.extend (w.read mem (memOff (X rs1 + imm))) sext = zx x) :
    Triple (Holds L R X mem ∅) (load queue L.memBase w sext rs1 rd imm) fun _ =>
      Holds L R (Function.update X rd x) mem ∅ := by
  intro m s h
  obtain ⟨m1, s1, hx1, h1, ht⟩ := exec_address hq hnarrow h rs1 imm hrange
  obtain ⟨m2, s2, hx2, h2⟩ := exec_loadFrom hq h1 w sext hr ht (by rwa [memOff_toNat]) hx
  refine ⟨(), m2, s2, ?_, h2⟩
  rw [load, Emitter.exec_bind, hx1, Option.bind_some, hx2]

theorem triple_store (hnarrow : R.Narrow) (w : X64.Width) (rs1 rs2 : Reg) (imm : Word)
    (hrange : InRange (X rs1) imm) (ha : (X rs1 + imm).toNat + w.size ≤ L.memSize) :
    Triple (Holds L R X mem ∅) (store queue L.memBase w rs1 rs2 imm) fun _ =>
      Holds L R X (w.write mem (memOff (X rs1 + imm)) (X rs2)) ∅ := by
  intro m s h
  obtain ⟨m1, s1, hx1, h1, ht⟩ := exec_address hq hnarrow h rs1 imm hrange
  obtain ⟨i, m2, s2, hx2, hi, h2, hk⟩ := exec_raLoad hq h1 rs2
  obtain ⟨m3, s3, hx3, h3⟩ := exec_storeTo h2 w hi (hk.temp.trans ht) (by rwa [memOff_toNat])
  refine ⟨(), m3, s3, ?_, h3⟩
  rw [store, Emitter.exec_bind, hx1, Option.bind_some, Emitter.exec_bind, hx2, Option.bind_some, hx3]

/-! ## Fused pairs -/

omit hq in
theorem exec_addressConst (h : Holds L R X mem ∅ m s) (a : Word) :
    ∃ s', (emitLoadImmSext tempReg (L.memBase + a.setWidth 64)).exec m s = some ((), m, s') ∧
      Holds L R X mem ∅ m s' ∧ s'.regs tempReg = L.memBase + memOff a :=
  ⟨_, exec_emitLoadImmSext .., h.set_temp _ s.flags, X64.State.set_regs_self ..⟩

theorem triple_fuse2 {ir : Insn} (hrd : ir.rd ≠ regZero) (hrs2 : ir.rs2 ≠ regZero) :
    Triple (Holds L R X mem ∅) (fuse2 queue ir) fun _ =>
      Holds L R (Function.update (Function.update X ir.rd ir.imm) ir.rs2
        (Function.update X ir.rd ir.imm ir.rs1 + ir.imm)) mem ∅ := by
  intro m s h
  obtain ⟨i0, m0, hm0, hx0, hi0, h0, _⟩ := exec_mapResult hq h [] (by decide) ir.rd
  -- `lui`, and the constant in the temporary register
  have h1 : Holds L R (Function.update X ir.rd ir.imm) mem ∅ (m0.setDirty (hostReg i0) true)
      (((withMem s hm0).set (hostReg i0) (zx ir.imm)).set tempReg (zx ir.imm)) := by
    refine h0.result hi0 hrd ?_ (fun q hqi hqt => by simp [hqi, hqt]) rfl rfl
    rw [X64.State.set_regs, Function.update_of_ne (hostReg_ne_tempReg i0), X64.State.set_regs, Function.update_self]
    exact R.zx _
  obtain ⟨i1, m1, s1, hx1, hi1, h2, hk⟩ := exec_raLoad hq h1 ir.rs1
  obtain ⟨i2, m2, hm2, hx2, hi2, h3, _⟩ := exec_mapResult hq h2 [hostReg i1] (by simp) ir.rs2
  have ht : s1.regs .rcx = zx ir.imm := hk.temp.trans (X64.State.set_regs_self ..)
  have hv := h2.lo_value hi1 (Set.notMem_empty _)
  have hne : X64.Reg.rcx ≠ hostReg i2 := (hostReg_ne_tempReg i2).symm
  have hexec : (fuse2 queue ir).exec m s = some ((), m2.setDirty (hostReg i2) true,
      X64.Alu.add.apply (hostReg i2) ir.imm ((withMem s1 hm2).set (hostReg i2) (s1.regs (hostReg i1)))) := by
    rw [fuse2, Emitter.exec_bind, mapVmReg, hx0, Option.bind_some, Emitter.exec_bind, exec_emitLoadImm,
      Option.bind_some, Emitter.exec_bind, exec_emitMov, Option.bind_some, Emitter.exec_bind]
    simp only [X64.State.set_regs, Function.update_self]
    rw [show (m0.setDirty (hostReg i0) true).setDirty tempReg true = m0.setDirty (hostReg i0) true from rfl, hx1,
      Option.bind_some, Emitter.exec_bind, mapVmRegReserved, hx2, Option.bind_some]
    simp [tempReg, hne, ht]
  rw [@X64.Alu.apply_of_result .add _ _ _ _ rfl] at hexec
  refine ⟨(), _, _, hexec, h3.result hi2 hrs2 ?_ (fun q hqi _ => by simp [hqi]) rfl rfl⟩
  simp only [X64.State.set_regs, Function.update_self, hv]
  exact R.zx _

theorem triple_fuse9 {ir : Insn} (hrd : ir.rd ≠ regZero) (hrs2 : ir.rs2 ≠ regZero)
    (ha : (ir.imm + ir.imm2).toNat + 4 ≤ L.memSize) :
    Triple (Holds L R X mem ∅) (fuse9 queue L.memBase ir) fun _ =>
      Holds L R (Function.update (Function.update X ir.rd ir.imm) ir.rs2
        (X64.Width.s32.read mem (memOff (ir.imm + ir.imm2)))) mem ∅ := by
  intro m s h
  obtain ⟨_, m1, s1, hx1, h1⟩ := triple_loadConst hq hrd ir.imm m s h
  obtain ⟨s2, hx2, h2, ht⟩ := exec_addressConst h1 (ir.imm + ir.imm2)
  obtain ⟨m3, s3, hx3, h3⟩ := exec_loadFrom hq h2 .s32 false hrs2 ht (by rwa [memOff_toNat]) rfl
  refine ⟨(), m3, s3, ?_, h3⟩
  rw [fuse9, Emitter.exec_bind, hx1, Option.bind_some, Emitter.exec_bind, hx2, Option.bind_some]
  exact hx3

theorem triple_fuse10 {ir : Insn} (hrd : ir.rd ≠ regZero) (ha : (ir.imm + ir.imm2).toNat + 4 ≤ L.memSize) :
    Triple (Holds L R X mem ∅) (fuse10 queue L.memBase ir) fun _ =>
      Holds L R (Function.update X ir.rd ir.imm) (X64.Width.s32.write mem (memOff (ir.imm + ir.imm2))
        (Function.update X ir.rd ir.imm ir.rs1)) ∅ := by
  intro m s h
  obtain ⟨_, m1, s1, hx1, h1⟩ := triple_loadConst hq hrd ir.imm m s h
  obtain ⟨i, m2, s2, hx2, hi, h2, _⟩ := exec_raLoad hq h1 ir.rs1
  obtain ⟨s3, hx3, h3, ht⟩ := exec_addressConst h2 (ir.imm + ir.imm2)
  obtain ⟨m4, s4, hx4, h4⟩ := exec_storeTo h3 .s32 hi ht (by rwa [memOff_toNat])
  refine ⟨(), m4, s4, ?_, h4⟩
  rw [fuse10, Emitter.exec_bind, hx1, Option.bind_some, Emitter.exec_bind, hx2, Option.bind_some, Emitter.exec_bind,
    hx3, Option.bind_some, hx4]

end

end Rv32emu.Tier1
