import Rv32emu.JitNodes

/-!
# Tier 1 against the interpreter

* `Leaves` : the state in which the code of a block is left, with the next `PC` in `rv->PC` or in the jump;
* `tail_sound` : the handlers that end a block;
* `BlockFits` : every node of a block fits in the state its predecessors leave;
* `translate_sound` : the code of a block does what the interpreter does, for any liveness of the registers and any
  table of candidates, wherever its jumps are placed;
* `chain_sound` : runs through the code of several blocks.
-/

namespace Rv32emu.Tier1

open X64 (Emitter Ending lo zx)
open X64.Emitter (emit Triple Ends)

/-! ## How the code of a block is left -/

/-- The address of `rv->PC`. -/
def Layout.pcSlot (L : Layout) : BitVec 64 := L.rv + pcOff.signExtend 64

/-- The code has gone to the block at the next `PC`, or left with it in `rv->PC`. -/
structure Leaves (L : Layout) (v : Visible) (dest : Option Word) (s : X64.State) : Prop where
  shows : Shows L v.X v.mem s
  pc : ∀ pc, dest = some pc → pc = v.pc
  exit : dest = none → X64.Width.s32.read s.mem L.pcSlot = v.pc

theorem pcOff_toNat : (pcOff.signExtend 64).toNat = 132 := by decide

theorem Layout.pcSlot_add (L : Layout) {k : BitVec 64} (hk : k.toNat < 4) :
    ∃ d : BitVec 64, L.pcSlot + k = L.rv + d ∧ d.toNat = 132 + k.toNat := by
  refine ⟨pcOff.signExtend 64 + k, BitVec.add_assoc .., ?_⟩
  rw [BitVec.toNat_add, pcOff_toNat, Nat.mod_eq_of_lt (by omega)]

theorem read32_write32 (hm : X64.Memory) (a : BitVec 64) (v : Word) :
    X64.Width.s32.read (X64.Width.s32.write hm a v) a = v := Mem.readW_writeW hm a v

section Leave

variable {L : Layout} {X : Reg → Word} {mem : Mem} {s : X64.State} (placed : Word → Bool)

/-- `rv->PC` is none of the VM registers. -/
theorem Layout.slot_ne_pcSlot (r : Reg) {j k : BitVec 64} (hj : j.toNat < 4) (hk : k.toNat < 4) :
    L.slot r + j ≠ L.pcSlot + k := by
  obtain ⟨d, hd, hdn⟩ := L.slot_add r hj
  obtain ⟨e, he, hen⟩ := L.pcSlot_add hk
  have hr := r.isLt
  intro heq
  rw [hd, he, BitVec.add_right_inj] at heq
  rw [heq] at hdn
  omega

theorem Layout.pcSlot_ne_guest {k off : BitVec 64} (hk : k.toNat < 4) (h : off.toNat < L.memSize) :
    L.pcSlot + k ≠ L.memBase + off := by
  obtain ⟨d, hd, hdn⟩ := L.pcSlot_add hk
  rw [hd]
  exact L.apart d off (by omega) h

theorem Shows.set (h : Shows L X mem s) {q : X64.Reg} (hq : q ≠ rvReg) (v : BitVec 64) (f : Option X64.Flags) :
    Shows L X mem ({ s with flags := f }.set q v) where
  x0 := h.x0
  slot hr := h.slot hr
  guest := h.guest
  rv := by rw [X64.State.set_regs, Function.update_of_ne hq.symm]; exact h.rv
  stack := h.stack

/-- `rv->PC` is written. -/
theorem Shows.storePc (h : Shows L X mem s) (pc : Word) :
    Leaves L ⟨X, mem, pc⟩ none (withMem s (X64.Width.s32.write s.mem L.pcSlot pc)) where
  shows :=
    { h with
      slot := fun {r} hr => (X64.Width.s32.read_congr fun _ hj => X64.Width.s32.write_of_ne fun _ hk =>
        L.slot_ne_pcSlot r hj hk).trans (h.slot hr)
      guest := fun off hoff => (X64.Width.s32.write_of_ne fun _ hk =>
        (L.pcSlot_ne_guest hk hoff).symm).trans (h.guest off hoff) }
  pc _ hpc := by cases hpc
  exit _ := read32_write32 s.mem L.pcSlot pc

def pcCode : List X64.Item := [.instr (.store .s32 tempReg rvReg pcOff)]

theorem mapsX0_tempReg (m : RegMap) : m.mapsX0 tempReg = false := by
  simp [RegMap.mapsX0, hostReg_ne_tempReg]

theorem storePc_eq (m : RegMap) : storePc m = some ((), m, pcCode) := by
  simp only [storePc, emitStore, bind, Emitter.get, Option.bind_some, mapsX0_tempReg, Bool.false_eq_true]
  rfl

def leaving (linked : Bool) (pc : Word) : Ending Word :=
  let rest : Ending Word := .seq (.instr (.movImm32 tempReg pc) :: pcCode) .exit
  if linked then .jmp pc rest else rest

theorem leaveTo_eq (linked : Bool) (pc : Word) (m : RegMap) :
    leaveTo linked pc m = some (leaving linked pc, m, []) := by
  have hbody : (do emitLoadImm tempReg pc; storePc : Gen Unit) m =
      some ((), m, .instr (.movImm32 tempReg pc) :: pcCode) := by
    have hload : emitLoadImm tempReg pc m = some ((), m, [.instr (.movImm32 tempReg pc)]) := rfl
    simp only [bind, hload, Option.bind_some, storePc_eq, Option.map_some]
    rfl
  unfold leaveTo Emitter.capture
  simp only [bind, pure] at hbody ⊢
  rw [hbody]
  rfl

/-- `rv->PC` from the temporary register. -/
theorem run_pcCode (h : Shows L X mem s) :
    ∃ s', (Ending.seq pcCode .exit).run placed s = some (none, s') ∧
      Leaves L ⟨X, mem, lo (s.regs tempReg)⟩ none s' := by
  refine ⟨_, ?_, h.storePc (lo (s.regs tempReg))⟩
  have haddr : s.addr rvReg pcOff = L.pcSlot := by rw [X64.State.addr, h.rv]; rfl
  simp only [Ending.run, pcCode, X64.run, X64.Item.run, X64.Instr.exec, haddr, Option.bind_some]

theorem run_jmp (h : Shows L X mem s) {pc : Word} {rest : Ending Word}
    (hrest : ∃ s', rest.run placed s = some (none, s') ∧ Leaves L ⟨X, mem, pc⟩ none s') :
    ∃ dest s', (Ending.jmp pc rest).run placed s = some (dest, s') ∧ Leaves L ⟨X, mem, pc⟩ dest s' := by
  by_cases hp : placed pc = true
  · refine ⟨some pc, s, ?_, h, fun pc' hpc => (Option.some_inj.mp hpc).symm, fun hn => by cases hn⟩
    rw [Ending.run, if_pos hp]
  · obtain ⟨s', hrun, h'⟩ := hrest
    refine ⟨none, s', ?_, h'⟩
    rw [Ending.run, if_neg hp, hrun]

theorem run_leaving (h : Shows L X mem s) (linked : Bool) (pc : Word) :
    ∃ dest s', (leaving linked pc).run placed s = some (dest, s') ∧ Leaves L ⟨X, mem, pc⟩ dest s' := by
  have hexit : ∃ s', (Ending.seq (.instr (.movImm32 tempReg pc) :: pcCode) .exit).run placed s = some (none, s') ∧
      Leaves L ⟨X, mem, pc⟩ none s' := by
    have ht : lo ((s.set tempReg (zx pc)).regs tempReg) = pc := by
      rw [X64.State.set_regs_self, X64.lo_zx]
    obtain ⟨s', hrun, h'⟩ := run_pcCode placed (h.set (by decide : tempReg ≠ rvReg) (zx pc) s.flags)
    rw [ht] at h'
    exact ⟨s', hrun, h'⟩
  cases linked with
  | false =>
    obtain ⟨s', hrun, h'⟩ := hexit
    exact ⟨none, s', hrun, h'⟩
  | true => exact run_jmp placed h hexit

theorem run_cond (c : X64.Cond) {x y : Word} (taken untaken : Ending Word) (hf : s.flags = some (X64.subFlags x y)) :
    (Ending.cond c taken untaken).run placed s =
      if c.eval x y then taken.run placed s else untaken.run placed s := by
  rw [Ending.run, hf, Option.bind_some, X64.Cond.holds_subFlags]

end Leave

/-! ## The handlers that end a block -/

section Tails

variable {env : Env} {L : Layout} {R : Rep} {X : Reg → Word} {mem : Mem} {queue : List Reg} {ir : Insn}
  {lk : TailLinks} (placed : Word → Bool)

theorem exec_leaveTo (linked : Bool) (pc : Word) (m : RegMap) (s : X64.State) :
    (leaveTo linked pc).exec m s = some (leaving linked pc, m, s) := by
  rw [Emitter.exec, leaveTo_eq, Option.bind_some, X64.run, Option.map_some]

/-- The registers are stored back, and the code is left to `pc`. -/
theorem ends_leaveTo (linked : Bool) (pc : Word) :
    Ends placed (Holds L R X mem ∅) (do storeBack; leaveTo linked pc) (Leaves L ⟨X, mem, pc⟩) := by
  intro m s h
  obtain ⟨m', hm, hx, -, hshow⟩ := exec_storeBack h
  obtain ⟨dest, s', hrun, h'⟩ := run_leaving placed hshow linked pc
  refine ⟨dest, s', ?_, h'⟩
  rw [Emitter.execTo, Emitter.exec_bind, hx, Option.bind_some, exec_leaveTo]
  exact hrun

theorem ends_jumpTo (pc : Word) : Ends placed (Holds L R X mem ∅) (jumpTo pc) (Leaves L ⟨X, mem, pc⟩) :=
  ends_leaveTo placed true pc

theorem ends_branchTo (c : X64.Cond) (lk : TailLinks) (taken untaken x y : Word) :
    Ends placed (fun m s => Holds L R X mem ∅ m s ∧ s.flags = some (X64.subFlags x y)) (branchTo c lk taken untaken)
      (Leaves L ⟨X, mem, if c.eval x y then taken else untaken⟩) := by
  rintro m s ⟨h, hf⟩
  obtain ⟨m', hm, hx, -, hshow⟩ := exec_storeBack h
  have hexec : (branchTo c lk taken untaken).exec m s =
      some (.cond c (leaving lk.taken.isSome taken) (leaving lk.untaken.isSome untaken), m', withMem s hm) := by
    rw [branchTo, Emitter.exec_bind, hx, Option.bind_some, Emitter.exec_bind, exec_leaveTo, Option.bind_some,
      Emitter.exec_bind, exec_leaveTo, Option.bind_some, Emitter.exec_pure]
  rw [Emitter.execTo, hexec, Option.bind_some, run_cond placed c _ _ (show (withMem s hm).flags = _ from hf)]
  cases c.eval x y with
  | true => exact run_leaving placed hshow _ taken
  | false => exact run_leaving placed hshow _ untaken

/-- The end of an indirect jump, whose target is in the temporary register. -/
theorem ends_leaveIndirect {bt : JitHistory} (hbt : lk.history = some bt) (target : Word) :
    Ends placed (fun m s => Holds L R X mem ∅ m s ∧ lo (s.regs tempReg) = target) (leaveIndirect lk)
      (Leaves L ⟨X, mem, target⟩) := by
  rintro m s ⟨h, ht⟩
  obtain ⟨m1, hm, hx, hclean, hshow⟩ := exec_storeBack h
  have hcapture (m : RegMap) (s : X64.State) : (Emitter.capture storePc).exec m s = some (pcCode, m, s) :=
    Emitter.exec_capture (storePc_eq m) s
  by_cases htr : bt.shouldTranslate {} 0 bt.maxIdx = true
  · have hsave : (saveReg firstHost).exec m1 (withMem s hm) = some ((), m1, withMem s hm) := by
      simp [saveReg, hclean firstHost]
    -- the cached target in the first host register, compared with the target
    have hload := hshow.set (hostReg_ne_rvReg firstHost) (zx (bt.pc bt.maxIdx))
      (some (X64.subFlags (bt.pc bt.maxIdx) target))
    obtain ⟨s2, hs2⟩ : ∃ s2, s2 = ({ withMem s hm with
        flags := some (X64.subFlags (bt.pc bt.maxIdx) target) } : X64.State).set (hostReg firstHost)
          (zx (bt.pc bt.maxIdx)) := ⟨_, rfl⟩
    rw [← hs2] at hload
    have htemp : lo (s2.regs tempReg) = target := by
      rw [hs2]
      exact ht
    have hmiss := run_pcCode placed hload
    rw [htemp] at hmiss
    have hexec : (leaveIndirect lk).execTo placed m s =
        (Ending.cond .ne (.seq pcCode .exit) (.jmp (bt.pc bt.maxIdx) (.seq pcCode .exit))).run placed s2 := by
      rw [Emitter.execTo, leaveIndirect, Emitter.exec_bind, hx, Option.bind_some, hs2, ← ht]
      simp only [hbt, Option.elim_some, htr, if_true, Emitter.exec_bind, hsave, Option.bind_some, exec_unmapVmReg,
        exec_emitLoadImm, exec_emitCmp32, hcapture, Emitter.exec_pure, X64.Alu.cmp_apply, X64.State.set_regs_self,
        X64.lo_zx]
      rfl
    rw [hexec, run_cond placed .ne _ _ (show s2.flags = _ by rw [hs2]; rfl)]
    by_cases heq : bt.pc bt.maxIdx = target
    · rw [heq, X64.Cond.eval, bne_self_eq_false, if_neg Bool.false_ne_true]
      exact run_jmp placed hload hmiss
    · rw [X64.Cond.eval, if_pos (bne_iff_ne.mpr heq)]
      obtain ⟨s3, hrun, h3⟩ := hmiss
      exact ⟨none, s3, hrun, h3⟩
  · obtain ⟨s2, hrun, h2⟩ := run_pcCode placed hshow
    rw [← ht]
    refine ⟨none, s2, ?_, h2⟩
    rw [Emitter.execTo, leaveIndirect, Emitter.exec_bind, hx, Option.bind_some]
    simp only [hbt, Option.elim_some, htr, Bool.false_eq_true, if_false, Emitter.exec_bind, hcapture, Option.bind_some,
      Emitter.exec_pure]
    exact hrun

variable (hq : ∀ r, r ∈ queue)

include hq

theorem ends_branch (c : X64.Cond) :
    Ends placed (Holds L R X mem ∅) (branch queue ir c lk)
      (Leaves L ⟨X, mem, if c.eval (X ir.rs1) (X ir.rs2) then ir.pc + ir.imm else ir.pc + 4⟩) := by
  intro m s h
  obtain ⟨i1, i2, m1, s1, hx, hi1, hi2, h1, -⟩ := exec_raLoad2 hq h ir.rs1 ir.rs2
  obtain ⟨dest, s2, hrun, h2⟩ := ends_branchTo placed c lk (ir.pc + ir.imm) (ir.pc + 4) _ _ _ _
    (exec_compared h1 hi1 (Set.notMem_empty _) (X ir.rs2))
  refine ⟨dest, s2, ?_, h2⟩
  rw [Emitter.execTo, branch, Emitter.exec_bind, hx, Option.bind_some, Emitter.exec_bind, exec_emitCmp32,
    Option.bind_some, h1.lo_value hi2 (Set.notMem_empty _)]
  exact hrun

theorem ends_cbranch (c : X64.Cond) :
    Ends placed (Holds L R X mem ∅) (cbranch queue ir c lk)
      (Leaves L ⟨X, mem, if c.eval (X ir.rs1) 0 then ir.pc + ir.imm else ir.pc + 2⟩) := by
  intro m s h
  obtain ⟨i, m1, s1, hx, hi, h1, -⟩ := exec_raLoad hq h ir.rs1
  obtain ⟨dest, s2, hrun, h2⟩ := ends_branchTo placed c lk (ir.pc + ir.imm) (ir.pc + 2) _ _ _ _
    (exec_compared h1 hi (Set.notMem_empty _) 0)
  refine ⟨dest, s2, ?_, h2⟩
  rw [Emitter.execTo, cbranch, Emitter.exec_bind, hx, Option.bind_some, Emitter.exec_bind, exec_emitCmpImm32,
    Option.bind_some]
  exact hrun

theorem ends_fuse12 (hrd : ir.rd ≠ regZero) :
    Ends placed (Holds L R X mem ∅) (fuse12 queue ir lk)
      (Leaves L ⟨Function.update X ir.rd (X ir.rs1 + ir.imm), mem,
        if X64.Cond.ne.eval (X ir.rs1 + ir.imm) 0 then ir.pc + 4 + ir.imm2 else ir.pc + 8⟩) := by
  intro m s h
  obtain ⟨i, m1, s1, s2, mark, hx, hi, h1, hv, hregs, hmem, hstack⟩ :=
    exec_moved hq h ir.rs1 ir.rd fun v1 => do
      emitAlu32Imm32 .add v1 ir.imm
      emitCmpImm32 v1 0
      branchTo .ne lk (ir.pc + 4 + ir.imm2) (ir.pc + 8)
  simp only [Emitter.exec_bind, exec_emitAlu32Imm32, exec_emitCmpImm32, Option.bind_some, setDirty_mark,
    @X64.Alu.apply_of_result .add _ _ _ _ rfl, R.lo_eq hv] at hx
  -- the sum is in the register of rd
  have h2 : Holds L R (Function.update X ir.rd (X ir.rs1 + ir.imm)) mem ∅ (m1.setDirty (hostReg i) true)
      ({ s2 with flags := some (X64.Alu.add.flags (X ir.rs1) ir.imm) }.set (hostReg i) (zx (X ir.rs1 + ir.imm))) := by
    refine h1.result hi hrd ?_ (fun q hqi _ => by simp [hqi, hregs]) hmem hstack
    rw [X64.State.set_regs, Function.update_self]
    exact R.zx _
  have h3 := exec_compared h2 (by rwa [RegMap.setDirty_vmReg]) (Set.notMem_empty _) 0
  rw [Function.update_self] at h3
  obtain ⟨dest, s4, hrun, h4⟩ := ends_branchTo placed .ne lk (ir.pc + 4 + ir.imm2) (ir.pc + 8) _ _ _ _ h3
  refine ⟨dest, s4, ?_, h4⟩
  rw [Emitter.execTo, fuse12]
  simp only [Emitter.exec_bind] at hx ⊢
  rw [hx]
  exact hrun

variable {c : Cpu}

omit hq in
theorem regRa_ne : regRa ≠ regZero := by decide

omit hq in
theorem setXNz_visibleAt (rd : Reg) (v pc : Word) :
    (c.setXNz rd v).visibleAt pc = ⟨(c.setXNz rd v).X, c.mem, pc⟩ := by
  unfold Cpu.setXNz
  split_ifs <;> rfl

/-- The link register of `jal` and `jalr`. -/
theorem exec_linkNz {m : RegMap} {s : X64.State} (h : Holds L R c.X c.mem ∅ m s) (rd : Reg) (ret : Word)
    (rest : Gen (Ending Word)) :
    ∃ m1 s1, (do
        if rd ≠ 0 then link queue rd ret
        rest : Gen (Ending Word)).execTo placed m s = rest.execTo placed m1 s1 ∧
      Holds L R (c.setXNz rd ret).X c.mem ∅ m1 s1 ∧ s1.regs tempReg = s.regs tempReg := by
  by_cases hrd : rd = 0
  · have hc : c.setXNz rd ret = c := if_neg (not_not.mpr hrd)
    rw [hc]
    refine ⟨m, s, ?_, h, rfl⟩
    simp only [if_neg (not_not.mpr hrd)]
  · have hc : c.setXNz rd ret = c.setX rd ret := if_pos hrd
    rw [hc]
    obtain ⟨m1, s1, hx, h1, ht⟩ := exec_loadConst hq h hrd ret
    refine ⟨m1, s1, ?_, h1, ht⟩
    simp only [Emitter.execTo, if_pos hrd, link, Emitter.exec_bind, hx, Option.bind_some]

theorem ends_jal :
    Ends placed (Holds L R c.X c.mem ∅) (do
        if ir.rd ≠ 0 then link queue ir.rd (ir.pc + 4)
        jumpTo (ir.pc + ir.imm)) (Leaves L ((c.setXNz ir.rd (ir.pc + 4)).visibleAt (ir.pc + ir.imm))) := by
  intro m s h
  obtain ⟨m1, s1, hx, h1, -⟩ := exec_linkNz placed hq h ir.rd (ir.pc + 4) (jumpTo (ir.pc + ir.imm))
  obtain ⟨dest, s', hrun, h'⟩ := ends_jumpTo placed (ir.pc + ir.imm) m1 s1 h1
  rw [setXNz_visibleAt]
  exact ⟨dest, s', hx.trans hrun, h'⟩

theorem ends_jalr {bt : JitHistory} (hbt : lk.history = some bt) :
    Ends placed (Holds L R c.X c.mem ∅) (jalr queue ir lk)
      (Leaves L ((c.setXNz ir.rd (ir.pc + 4)).visibleAt ((c.X ir.rs1 + ir.imm) &&& ~~~1))) := by
  intro m s h
  obtain ⟨i, m1, s1, hx, hi, h1, -⟩ := exec_raLoad hq h ir.rs1
  have hv := h1.lo_value hi (Set.notMem_empty _)
  -- the target is in the temporary register
  obtain ⟨s2, hs2⟩ : ∃ s2, s2 = X64.Alu.and.apply tempReg (~~~1)
    (X64.Alu.add.apply tempReg ir.imm (s1.set tempReg (s1.regs (hostReg i)))) := ⟨_, rfl⟩
  have h2 : Holds L R c.X c.mem ∅ m1 s2 := by
    rw [hs2]
    exact ((h1.set_temp _ _).set_temp _ _).set_temp _ _
  have ht : lo (s2.regs tempReg) = (c.X ir.rs1 + ir.imm) &&& ~~~1 := by
    rw [hs2, @X64.Alu.apply_of_result .and _ _ _ _ rfl, @X64.Alu.apply_of_result .add _ _ _ _ rfl]
    simp only [X64.State.set_regs_self, X64.lo_zx, hv]
  obtain ⟨m3, s3, hx3, h3, ht3⟩ := exec_linkNz placed hq h2 ir.rd (ir.pc + 4) (leaveIndirect lk)
  obtain ⟨dest, s', hrun, h'⟩ := ends_leaveIndirect placed hbt _ m3 s3 ⟨h3, (congrArg lo ht3).trans ht⟩
  rw [setXNz_visibleAt]
  refine ⟨dest, s', ?_, h'⟩
  rw [Emitter.execTo, jalr]
  simp only [Emitter.exec_bind, hx, Option.bind_some, exec_emitMov, exec_emitAlu32Imm32]
  rw [← hs2]
  exact hx3.trans hrun

/-- `cjr`, and `cjalr` with the link. -/
theorem ends_cjumpReg {bt : JitHistory} (hbt : lk.history = some bt) (linked : Bool) :
    Ends placed (Holds L R c.X c.mem ∅) (cjumpReg queue ir lk linked)
      (Leaves L ((if linked then c.setX regRa (ir.pc + 2) else c).visibleAt (c.X ir.rs1))) := by
  intro m s h
  obtain ⟨i, m1, s1, hx, hi, h1, -⟩ := exec_raLoad hq h ir.rs1
  have h2 := h1.set_temp (s1.regs (hostReg i)) s1.flags
  have ht : lo ((s1.set tempReg (s1.regs (hostReg i))).regs tempReg) = c.X ir.rs1 := by
    rw [X64.State.set_regs_self, h1.lo_value hi (Set.notMem_empty _)]
  cases linked with
  | false =>
    obtain ⟨dest, s', hrun, h'⟩ := ends_leaveIndirect placed hbt _ m1 _ ⟨h2, ht⟩
    refine ⟨dest, s', ?_, h'⟩
    rw [Emitter.execTo, cjumpReg]
    simp only [Emitter.exec_bind, hx, Option.bind_some, exec_emitMov, Bool.false_eq_true, if_false]
    exact hrun
  | true =>
    obtain ⟨m3, s3, hx3, h3, ht3⟩ := exec_loadConst hq h2 regRa_ne (ir.pc + 2)
    obtain ⟨dest, s', hrun, h'⟩ := ends_leaveIndirect placed hbt _ m3 s3 ⟨h3, (congrArg lo ht3).trans ht⟩
    refine ⟨dest, s', ?_, h'⟩
    have hlink : (link queue regRa (ir.pc + 2)).exec (m1.setDirty tempReg true)
        (s1.set tempReg (s1.regs (hostReg i))) = some ((), m3, s3) := hx3
    rw [Emitter.execTo, cjumpReg]
    simp only [Emitter.exec_bind, hx, Option.bind_some, exec_emitMov, if_true, hlink]
    exact hrun

omit hq

section Interpreter

variable {cycle : BitVec 64}

theorem impl_visible_branch (hext : env.extC = true) (hfuse : ir.opcode.isFuse = false)
    {untaken : Word → Word → Bool} (hrow : rvop ir.opcode = .branch untaken) (hlen : ir.opcode.len = 4)
    {cond : X64.Cond} (hcond : ∀ x y, cond.eval x y = !untaken x y) :
    (impl env ir {} false cycle ir.pc c).visible env =
      ⟨c.X, c.mem, if cond.eval (c.X ir.rs1) (c.X ir.rs2) then ir.pc + ir.imm else ir.pc + 4⟩ := by
  rw [impl_of_not_fuse hfuse, doRvop_visible, hrow, hlen,
    branch_visible (s := ⟨c, 0, fun _ _ => {}⟩) hext untaken, hcond]
  cases untaken (c.X ir.rs1) (c.X ir.rs2) <;> rfl

theorem impl_visible_cbranch (hfuse : ir.opcode.isFuse = false) {untaken : Word → Bool}
    (hrow : rvop ir.opcode = .cbranch untaken) (hlen : ir.opcode.len = 2) {cond : X64.Cond}
    (hcond : ∀ x, cond.eval x 0 = !untaken x) :
    (impl env ir {} false cycle ir.pc c).visible env =
      ⟨c.X, c.mem, if cond.eval (c.X ir.rs1) 0 then ir.pc + ir.imm else ir.pc + 2⟩ := by
  rw [impl_of_not_fuse hfuse, doRvop_visible, hrow, hlen, cbranch_visible (s := ⟨c, 0, fun _ _ => {}⟩) untaken, hcond]
  cases untaken (c.X ir.rs1) <;> rfl

include hq in
theorem tail_branch (hext : env.extC = true) (hfuse : ir.opcode.isFuse = false) {untaken : Word → Word → Bool}
    (hrow : rvop ir.opcode = .branch untaken) (hlen : ir.opcode.len = 4) {cond : X64.Cond}
    (hcond : ∀ x y, cond.eval x y = !untaken x y) :
    Ends placed (Holds L R c.X c.mem ∅) (branch queue ir cond lk)
      (Leaves L ((impl env ir {} false cycle ir.pc c).visible env)) := by
  rw [impl_visible_branch hext hfuse hrow hlen hcond]
  exact ends_branch placed hq cond

include hq in
theorem tail_cbranch (hfuse : ir.opcode.isFuse = false) {untaken : Word → Bool}
    (hrow : rvop ir.opcode = .cbranch untaken) (hlen : ir.opcode.len = 2) {cond : X64.Cond}
    (hcond : ∀ x, cond.eval x 0 = !untaken x) :
    Ends placed (Holds L R c.X c.mem ∅) (cbranch queue ir cond lk)
      (Leaves L ((impl env ir {} false cycle ir.pc c).visible env)) := by
  rw [impl_visible_cbranch hfuse hrow hlen hcond]
  exact ends_cbranch placed hq cond

theorem impl_visible_fuse12 (hop : ir.opcode = .fuse12) :
    (impl env ir {} false cycle ir.pc c).visible env =
      ⟨Function.update c.X ir.rd (c.X ir.rs1 + ir.imm), c.mem,
        if X64.Cond.ne.eval (c.X ir.rs1 + ir.imm) 0 then ir.pc + 4 + ir.imm2 else ir.pc + 8⟩ := by
  have hrd : (c.setX ir.rd (c.X ir.rs1 + ir.imm)).X ir.rd = c.X ir.rs1 + ir.imm := Function.update_self ..
  simp only [impl, hop, doFuse12, hrd, X64.Cond.eval, bne_iff_ne]
  by_cases h : c.X ir.rs1 + ir.imm = 0
  · rw [if_neg (not_not.mpr h), if_neg (not_not.mpr h)]
    rfl
  · rw [if_pos h, if_pos h, BitVec.add_assoc]
    rfl

theorem impl_visible_jal (hext : env.extC = true) (hop : ir.opcode = .jal) :
    (impl env ir {} false cycle ir.pc c).visible env =
      (c.setXNz ir.rd (ir.pc + 4)).visibleAt (ir.pc + ir.imm) := by
  have hfuse : ir.opcode.isFuse = false := by rw [hop]; rfl
  rw [impl_of_not_fuse hfuse, doRvop_visible, hop]
  exact jal_visible (s := ⟨c, 0, fun _ _ => {}⟩) hext _

theorem impl_visible_jalr (hext : env.extC = true) (hop : ir.opcode = .jalr) :
    (impl env ir {} false cycle ir.pc c).visible env =
      (c.setXNz ir.rd (ir.pc + 4)).visibleAt ((c.X ir.rs1 + ir.imm) &&& ~~~1) := by
  have hfuse : ir.opcode.isFuse = false := by rw [hop]; rfl
  rw [impl_of_not_fuse hfuse, doRvop_visible, hop]
  exact jalr_visible (s := ⟨c, 0, fun _ _ => {}⟩) hext _

end Interpreter

/-- `match_pattern` fuses a counter that is not `x0`, and an indirect jump has a table. -/
def TailFits (ir : Insn) (lk : TailLinks) : Prop :=
  match ir.opcode with
  | .fuse12 => ir.rd ≠ regZero
  | .jalr | .cjr | .cjalr => lk.history.isSome = true
  | _ => True

include hq

/-- **The code at the end of a block leaves it where the interpreter does.** -/
theorem tail_sound (hext : env.extC = true) (hfit : TailFits ir lk) {e : Gen (Ending Word)}
    (hgen : genTail queue ir lk = some e) (cycle : BitVec 64) :
    Ends placed (Holds L R c.X c.mem ∅) e (Leaves L ((impl env ir {} false cycle ir.pc c).visible env)) := by
  obtain ⟨imm, rd, rs1, rs2, opcode, shamt, rm, imm2, fuse, pc⟩ := ir
  cases opcode
  case beq =>
    cases hgen
    exact tail_branch placed hq hext rfl rfl rfl fun x y => by simp [X64.Cond.eval, bne]
  case bne =>
    cases hgen
    exact tail_branch placed hq hext rfl rfl rfl fun x y => by simp [X64.Cond.eval, bne]
  case blt =>
    cases hgen
    exact tail_branch placed hq hext rfl rfl rfl slt_eq_not_sle
  case bge =>
    cases hgen
    exact tail_branch placed hq hext rfl rfl rfl fun x y => rfl
  case bltu =>
    cases hgen
    exact tail_branch placed hq hext rfl rfl rfl ult_eq_not_ule
  case bgeu =>
    cases hgen
    exact tail_branch placed hq hext rfl rfl rfl fun x y => rfl
  case cbeqz =>
    cases hgen
    exact tail_cbranch placed hq rfl rfl rfl fun x => by simp [X64.Cond.eval, bne]
  case cbnez =>
    cases hgen
    exact tail_cbranch placed hq rfl rfl rfl fun x => by simp [X64.Cond.eval, bne]
  case fuse12 =>
    cases hgen
    rw [impl_visible_fuse12 rfl]
    exact ends_fuse12 placed hq hfit
  case jal =>
    cases hgen
    rw [impl_visible_jal hext rfl]
    exact ends_jal placed hq
  case jalr =>
    cases hgen
    obtain ⟨bt, hbt⟩ := Option.isSome_iff_exists.mp hfit
    rw [impl_visible_jalr hext rfl]
    exact ends_jalr placed hq hbt
  case cjal =>
    cases hgen
    rw [impl_of_not_fuse rfl, doRvop_visible]
    exact (triple_loadConst hq regRa_ne (pc + 2)).ends fun _ => ends_jumpTo placed _
  case cj =>
    cases hgen
    rw [impl_of_not_fuse rfl, doRvop_visible]
    exact ends_jumpTo placed _
  case cjr =>
    cases hgen
    obtain ⟨bt, hbt⟩ := Option.isSome_iff_exists.mp hfit
    exact ends_cjumpReg placed hq hbt false
  case cjalr =>
    cases hgen
    obtain ⟨bt, hbt⟩ := Option.isSome_iff_exists.mp hfit
    exact ends_cjumpReg placed hq hbt true
  all_goals cases hgen

end Tails

/-! ## Blocks -/

/-- The opcodes of `genTail`. -/
def leavesBlock : Opcode → Bool
  | .jal | .jalr | .beq | .bne | .blt | .bge | .bltu | .bgeu | .cjal | .cj | .cbeqz | .cbnez | .cjr | .cjalr
  | .fuse12 => true
  | _ => false

theorem genTail_isSome (queue : List Reg) (ir : Insn) (lk : TailLinks) :
    (genTail queue ir lk).isSome = leavesBlock ir.opcode := by
  unfold genTail leavesBlock
  cases ir.opcode <;> rfl

/-- From `pc` on, every node fits in the state that its predecessors leave and is where it is run. -/
def BlockFits (env : Env) (L : Layout) (R : Rep) (b : JitBlock) : List Insn → Word → Cpu → Prop
  | [], pc, _ => b.pageTerminated = true ∧ b.pcEnd = pc
  | ir :: irs, pc, s => ir.pc = pc ∧
    if leavesBlock ir.opcode then irs = [] ∧ TailFits ir b.links
    else Fits env L R ir s ∧
      ∀ cycle cycle' pc' s', impl env ir {} false cycle pc s = .next cycle' pc' s' → BlockFits env L R b irs pc' s'

theorem andThen_nil_visible (env : Env) (r : Ctl) : (r.andThen (runIr env [])).visible env = r.visible env := by
  cases r <;> rfl

theorem Holds.regsRefresh {L : Layout} {R : Rep} {X : Reg → Word} {mem : Mem} {P : Set Reg} {m : RegMap}
    {s : X64.State} (h : Holds L R X mem P m s) (liveness : Reg → Int) (idx : Nat) :
    Holds L R X mem P (m.regsRefresh liveness idx) s :=
  { h with
    alive := fun {i} hi => by
      refine h.alive ?_
      unfold RegMap.regsRefresh at hi
      revert hi
      dsimp only
      split
      · split_ifs
        · exact False.elim
        · exact id
      · exact id }

section Blocks

variable {env : Env} {L : Layout} {R : Rep} {queue : List Reg} (liveness : Reg → Int) (placed : Word → Bool)
  {b : JitBlock} (hext : env.extC = true) (hq : ∀ r, r ∈ queue)

include hext hq

theorem translateFrom_sound (irs : List Insn) (idx : Nat) (cycle : BitVec 64) (pc : Word) (s : Cpu)
    (hfit : BlockFits env L R b irs pc s) :
    Ends placed (Holds L R s.X s.mem ∅) (translateFrom queue L.memBase liveness b idx irs)
      (Leaves L ((runIr env irs cycle pc s).visible env)) := by
  induction irs generalizing idx cycle pc s with
  | nil =>
    obtain ⟨hpage, rfl⟩ := hfit
    rw [translateFrom, if_pos hpage]
    exact ends_leaveTo placed _ b.pcEnd
  | cons ir irs ih =>
    obtain ⟨rfl, hfit⟩ := hfit
    have hrefresh : Triple (Holds L R s.X s.mem ∅) (Emitter.modify (RegMap.regsRefresh liveness idx)) fun _ =>
        Holds L R s.X s.mem ∅ :=
      Triple.of_exec (fun m t => Emitter.exec_modify _ m t) fun m t ht => ht.regsRefresh liveness idx
    rw [translateFrom]
    refine hrefresh.ends fun _ => ?_
    rw [runIr_cons]
    by_cases htail : leavesBlock ir.opcode = true
    · rw [if_pos htail] at hfit
      obtain ⟨rfl, hfit⟩ := hfit
      obtain ⟨e, he⟩ := Option.isSome_iff_exists.mp ((genTail_isSome queue ir b.links).trans htail)
      rw [he, andThen_nil_visible]
      exact tail_sound placed hq hext hfit he cycle
    · rw [if_neg htail] at hfit
      obtain ⟨hnode, hrest⟩ := hfit
      have he : genTail queue ir b.links = none := by
        rw [← Option.not_isSome_iff_eq_none, genTail_isSome]
        exact htail
      rw [he]
      intro m t ht
      obtain ⟨s1, himpl, hgen⟩ := gen_sound hq ht.x0 hnode
      obtain ⟨cycle1, h1⟩ := himpl cycle
      rw [h1, Ctl.andThen_next]
      exact hgen.ends (fun _ => ih (idx + 1) cycle1 _ s1 (hrest _ _ _ _ h1)) m t ht

/-- **The code of a block takes `rv->X` and the guest's memory where the interpreter takes them.** -/
theorem translate_sound (cycle : BitVec 64) (pc : Word) (s : Cpu) (hfit : BlockFits env L R b b.irs pc s) :
    Ends placed (fun _ => Shows L s.X s.mem) (translate queue L.memBase liveness b)
      (Leaves L ((runIr env b.irs cycle pc s).visible env)) := by
  have hreset : Triple (fun _ => Shows L s.X s.mem) (Emitter.modify fun _ => RegMap.reset) fun _ =>
      Holds L R s.X s.mem ∅ :=
    Triple.of_exec (fun m t => Emitter.exec_modify _ m t) fun _ _ ht => ht.holds_reset
  exact hreset.ends fun _ => translateFrom_sound liveness placed hext hq b.irs 0 cycle pc s hfit

end Blocks

/-! ## Runs through several blocks -/

/-- The machine behind a node, with `PC` and cycle count saved. -/
def settle (env : Env) : Ctl → Cpu
  | .next cycle pc s | .enter _ cycle pc s | .lookup cycle pc s => s.save cycle pc
  | .ret _ s => s
  | .trap t s => (t.take env s).1

theorem settle_visibleAt (env : Env) (r : Ctl) : (settle env r).visibleAt (settle env r).PC = r.visible env := by
  cases r <;> rfl

/-- The interpreter, for `n` blocks; it stops where `code` has none. -/
def runBlocks (env : Env) (code : Word → Option JitBlock) : Nat → Cpu → Cpu
  | 0, s => s
  | n + 1, s => match code s.PC with
    | none => s
    | some b => runBlocks env code n (settle env (runIr env b.irs s.csr.cycle s.PC s))

/-- The code that is placed for the block at `pc`, and on through its jumps, for `n` blocks: the block it has come to,
if it has not left. -/
def runCode (queue : JitBlock → List Reg) (memBase : BitVec 64) (liveness : JitBlock → Reg → Int)
    (code : Word → Option JitBlock) : Nat → Word → X64.State → Option (Option Word × X64.State)
  | 0, pc, t => some (some pc, t)
  | n + 1, pc, t => do
    let b ← code pc
    let x ← (translate (queue b) memBase (liveness b) b).execTo (fun pc => (code pc).isSome) RegMap.reset t
    match x.1 with
    | none => return x
    | some pc' => runCode queue memBase liveness code n pc' x.2

section Chain

variable {env : Env} {L : Layout} {queue : JitBlock → List Reg} (liveness : JitBlock → Reg → Int)
  {code : Word → Option JitBlock}

/-- **Tier-1 code that runs through blocks by its own jumps is where the interpreter is after some of them**: after all
`n` if it has not left, and with `rv->PC` written if it has. -/
theorem chain_sound (hext : env.extC = true) (hq : ∀ b r, r ∈ queue b) (n : Nat) (s : Cpu) (t : X64.State)
    (hshow : Shows L s.X s.mem t) (hcode : (code s.PC).isSome = true)
    (hfit : ∀ k < n, ∀ b, code (runBlocks env code k s).PC = some b →
      ∃ R, BlockFits env L R b b.irs (runBlocks env code k s).PC (runBlocks env code k s)) :
    ∃ k ≤ n, ∃ dest t', runCode queue L.memBase liveness code n s.PC t = some (dest, t') ∧
      Leaves L ((runBlocks env code k s).visibleAt (runBlocks env code k s).PC) dest t' ∧ (dest ≠ none → k = n) := by
  induction n generalizing s t with
  | zero =>
    exact ⟨0, Nat.le_refl 0, some s.PC, t, rfl, ⟨hshow, fun _ h => (Option.some_inj.mp h).symm, fun h => by cases h⟩,
      fun _ => rfl⟩
  | succ n ih =>
    obtain ⟨b, hb⟩ := Option.isSome_iff_exists.mp hcode
    obtain ⟨R, hbfit⟩ := hfit 0 (Nat.succ_pos n) b hb
    obtain ⟨s1, hs1⟩ : ∃ s1, s1 = settle env (runIr env b.irs s.csr.cycle s.PC s) := ⟨_, rfl⟩
    have hstep (k : Nat) : runBlocks env code (k + 1) s = runBlocks env code k s1 := by
      rw [runBlocks, hb, hs1]
    obtain ⟨dest, t1, hx, h1⟩ :=
      translate_sound (liveness b) (fun pc => (code pc).isSome) hext (hq b) s.csr.cycle s.PC s hbfit RegMap.reset t
        hshow
    rw [← settle_visibleAt, ← hs1] at h1
    have hrun : runCode queue L.memBase liveness code (n + 1) s.PC t = match dest with
        | none => some (none, t1)
        | some pc' => runCode queue L.memBase liveness code n pc' t1 := by
      simp only [runCode, hb, hx, bind, Option.bind_some]
      cases dest <;> rfl
    cases dest with
    | none =>
      refine ⟨1, Nat.succ_le_succ (Nat.zero_le n), none, t1, hrun, ?_, fun h => absurd rfl h⟩
      rw [hstep, runBlocks]
      exact h1
    | some pc' =>
      obtain rfl : pc' = s1.PC := h1.pc pc' rfl
      have hplaced := Emitter.execTo_placed hx
      obtain ⟨k, hk, dest, t', hx', h', hall⟩ := ih s1 t1 h1.shows hplaced fun k hk b' hb' => by
        rw [← hstep] at hb' ⊢
        exact hfit (k + 1) (Nat.succ_lt_succ hk) b' hb'
      refine ⟨k + 1, Nat.succ_le_succ hk, dest, t', hrun.trans hx', ?_, fun hd => congrArg _ (hall hd)⟩
      rw [hstep]
      exact h'

end Chain

/-- The loop that counts `a0` down. -/
def countdown : JitBlock where
  irs := [{ opcode := .addi, rd := 10, rs1 := 10, imm := -1 }, { opcode := .bne, rs1 := 10, imm := -4, pc := 4 }]
  pageTerminated := false
  pcEnd := 8
  links := { taken := some 0 }

/-- `riscv_t` at 0, and a page of guest memory behind the first. -/
def lowLayout : Layout where
  rv := 0
  memBase := 4096
  memSize := 4096
  memSize_le := by decide
  apart k off hk hoff h := by
    have hn := congrArg BitVec.toNat h
    rw [BitVec.toNat_add, BitVec.toNat_add, show (0 : BitVec 64).toNat = 0 from rfl,
      show (4096 : BitVec 64).toNat = 4096 from rfl] at hn
    omega

/-- A machine with `a0 = 2`. -/
def two : Cpu := (Cpu.zero fun _ => 0).setX 10 2

def twoHost : X64.State where
  regs _ := 0
  flags := none
  stack := []
  mem := X64.Width.s32.write (fun _ => 0) (lowLayout.slot 10) 2

theorem countdown_fits (s : Cpu) : BlockFits (Env.bare false) lowLayout .zero countdown countdown.irs 0 s := by
  refine ⟨rfl, (by decide : (10 : Reg) ≠ regZero), fun cycle cycle' pc' s' h => ?_⟩
  cases h
  exact ⟨rfl, rfl, trivial⟩

theorem twoHost_shows : Shows lowLayout two.X two.mem twoHost where
  x0 := rfl
  slot {r} hr := by
    revert r
    decide
  guest off hoff := lowLayout.guest_write_slot (fun _ => 0) 2 10 hoff
  rv := rfl
  stack := rfl

def allRegs : List Reg := (List.range 32).map (BitVec.ofNat 5)

/-- The code of the loop, and nothing behind it. -/
def countdownCode (pc : Word) : Option JitBlock := if pc = 0 then some countdown else none

/-- The loop, run from `a0 = 2`. -/
theorem chain_sound_countdown :
    ∃ k ≤ 3, ∃ dest t', runCode (fun _ => allRegs) lowLayout.memBase (fun _ _ => 0) countdownCode 3 0 twoHost =
        some (dest, t') ∧
      Leaves lowLayout ((runBlocks (Env.bare false) countdownCode k two).visibleAt
        (runBlocks (Env.bare false) countdownCode k two).PC) dest t' ∧ (dest ≠ none → k = 3) := by
  refine chain_sound (fun _ _ => 0) rfl (fun _ => by decide) 3 two twoHost twoHost_shows rfl fun k _ b hb => ?_
  obtain ⟨hpc, rfl⟩ : (runBlocks (Env.bare false) countdownCode k two).PC = 0 ∧ countdown = b := by
    rwa [countdownCode, Option.ite_none_right_eq_some, Option.some_inj] at hb
  rw [hpc]
  exact ⟨.zero, countdown_fits _⟩

end Rv32emu.Tier1
