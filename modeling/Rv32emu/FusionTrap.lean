import Rv32emu.FusionSound

/-!
# Traps inside a fused node

A fused node raises a misaligned access with the `PC` of its first entry, and the default handler
re-decodes the instruction there.

* `raise_withCycle` : taking a trap does not look at the cycle count, the only thing that differs
  when the first entry traps;
* `preciseTrap_iff` : a misaligned access, or a misaligned jump target, inside a fused node is
  reported precisely exactly if it is in the first entry.
-/

namespace Rv32emu

/-! ## Traps do not depend on the cycle count -/

def Cpu.withCycle (s : Cpu) (cycle : BitVec 64) : Cpu := { s with csr := { s.csr with cycle } }

theorem setCauseAndTval_withCycle (cause : Cause) (tval : Word) (s : Cpu) (cycle : BitVec 64) :
    setCauseAndTval cause tval (s.withCycle cycle) = (setCauseAndTval cause tval s).withCycle cycle := by
  unfold setCauseAndTval
  simp only [show (s.withCycle cycle).isUOrSMode = s.isUOrSMode from rfl]
  split <;> rfl

theorem vectorTo_withCycle (base mode cause : Word) (s : Cpu) (cycle : BitVec 64) :
    vectorTo base mode cause (s.withCycle cycle) = (vectorTo base mode cause s).withCycle cycle := by
  unfold vectorTo
  split_ifs <;> rfl

theorem emulateMisalignedLoad_withCycle (s : Cpu) (ir : Insn) (addr : Word) (cycle : BitVec 64) :
    emulateMisalignedLoad (s.withCycle cycle) ir addr =
      (emulateMisalignedLoad s ir addr).map (·.withCycle cycle) := by
  unfold emulateMisalignedLoad
  simp only
  split <;> rfl

theorem emulateMisalignedStore_withCycle (s : Cpu) (ir : Insn) (addr : Word) (cycle : BitVec 64) :
    emulateMisalignedStore (s.withCycle cycle) ir addr =
      (emulateMisalignedStore s ir addr).map (·.withCycle cycle) := by
  unfold emulateMisalignedStore
  simp only
  split <;> try split
  all_goals rfl

theorem trapDefaultHandler_withCycle (env : Env) (s : Cpu) (cycle : BitVec 64) :
    trapDefaultHandler env (s.withCycle cycle) = (trapDefaultHandler env s).withCycle cycle := by
  have hmcause : (s.withCycle cycle).csr.mcause = s.csr.mcause := rfl
  have hfetch : (s.withCycle cycle).ifetch (s.withCycle cycle).csr.mepc = s.ifetch s.csr.mepc := rfl
  have hmtval : (s.withCycle cycle).csr.mtval = s.csr.mtval := rfl
  unfold trapDefaultHandler
  simp only [hmcause, hfetch, hmtval, emulateMisalignedLoad_withCycle,
    emulateMisalignedStore_withCycle]
  by_cases hio : s.csr.mcause = Cause.loadMisaligned.code ∨ s.csr.mcause = Cause.storeMisaligned.code
  · rw [if_pos hio, if_pos hio]
    by_cases hz : s.ifetch s.csr.mepc = 0
    · rw [if_pos hz, if_pos hz]
      rfl
    · rw [if_neg hz, if_neg hz]
      cases rvDecode env.extC (s.ifetch s.csr.mepc) with
      | abort | illegal => rfl
      | ok ir =>
        simp only
        split_ifs
        · cases emulateMisalignedLoad s ir s.csr.mtval <;> rfl
        · cases emulateMisalignedStore s ir s.csr.mtval <;> rfl
  · rw [if_neg hio, if_neg hio]
    rfl

theorem trapHandler_withCycle (env : Env) (s : Cpu) (cycle : BitVec 64) :
    trapHandler env (s.withCycle cycle) = (trapHandler env s).withCycle cycle := by
  have hS : enterSupervisor (s.withCycle cycle) = (enterSupervisor s).withCycle cycle := rfl
  have hM : enterMachine (s.withCycle cycle) = (enterMachine s).withCycle cycle := rfl
  have hmode : (s.withCycle cycle).isUOrSMode = s.isUOrSMode := rfl
  have hmtvec : (s.withCycle cycle).csr.mtvec = s.csr.mtvec := rfl
  simp only [trapHandler, hS, hM, hmode, hmtvec, vectorTo_withCycle, trapDefaultHandler_withCycle]
  split_ifs <;> rfl

theorem raise_withCycle (env : Env) (cause : Cause) (tval : Word) (s : Cpu) (cycle : BitVec 64) :
    raise env cause tval (s.withCycle cycle) = (raise env cause tval s).withCycle cycle := by
  unfold raise
  rw [setCauseAndTval_withCycle, trapHandler_withCycle]

/-! ## Groups before the trap -/

/-- Groups that others follow run like their nodes, as long as these fall through. -/
theorem groups_runThrough (env : Env) (gs : List (Insn × List Insn)) (rest : List Insn)
    (hrest : rest ≠ []) (hgs : ∀ g ∈ gs, FusedFrom g.1 g.2)
    (hun : Unfused (gs.flatMap Prod.snd ++ rest)) {cycle cycle' : BitVec 64} {pc pc' : Word} {s s' : Cpu}
    (h : runThrough env (gs.flatMap Prod.snd) cycle pc s = .next cycle' pc' s') :
    runThrough env (gs.map Prod.fst) cycle pc s = .next cycle' pc' s' := by
  induction gs generalizing cycle pc s with
  | nil => exact h
  | cons g gs ih =>
    obtain ⟨node, l⟩ := g
    have hg : FusedFrom node l := hgs (node, l) (by simp)
    simp only [List.flatMap_cons, List.append_assoc] at hun h
    rw [runThrough_append] at h
    have h12 : node.opcode = .fuse12 → l = [node] := by
      intro hop
      have := (hg.of_fuse12 hun hop).1
      exact absurd (List.append_eq_nil_iff.mp this).2 hrest
    have hnt : (runThrough env l cycle pc s).isTrap = false :=
      Ctl.isTrap_of_andThen (by rw [h]; rfl)
    rw [List.map_cons, runThrough, hg.run h12 env cycle pc s hnt]
    cases hl : runThrough env l cycle pc s with
    | next cycle1 pc1 s1 =>
      rw [hl] at h
      exact ih (fun g hg => hgs g (by simp [hg])) hun.of_append h
    | enter | lookup | ret | trap =>
      rw [hl] at h
      cases h

/-! ## Precise traps -/

/-- The fused block traps as the unfused one does, in the state `sf`: same cause and `mtval`,
`rv->PC` at the trapping instruction, and the same registers, memory and `PC` once the trap has been
handled. -/
structure TrapsAlike (env : Env) (t tf : Trap) (s sf : Cpu) (pc : Word) : Prop where
  cause : tf.cause = t.cause
  tval : tf.tval = t.tval
  pc : sf.PC = pc
  X : (tf.take env sf).1.X = (t.take env s).1.X
  mem : (tf.take env sf).1.mem = (t.take env s).1.mem
  PC : (tf.take env sf).1.PC = (t.take env s).1.PC

/-- A run of the fused block ends in a trap like the trap `t` that the unfused one raised at `pc`. -/
def PreciseTrap (env : Env) (r : Ctl) (t : Trap) (s : Cpu) (pc : Word) : Prop :=
  ∃ tf sf, r = .trap tf sf ∧ TrapsAlike env t tf s sf pc

theorem preciseTrap_trap_iff {env : Env} {t tf : Trap} {s sf : Cpu} {pc : Word} :
    PreciseTrap env (.trap tf sf) t s pc ↔ TrapsAlike env t tf s sf pc := by
  constructor
  · rintro ⟨_, _, ⟨⟩, h⟩
    exact h
  · intro h
    exact ⟨tf, sf, rfl, h⟩

/-- Saving another cycle count makes no difference, saving another `PC` does. -/
theorem preciseTrap_save_iff {env : Env} {t : Trap} (hafter : t.after = .retFalse) {s : Cpu}
    {cycle cycle' : BitVec 64} {pc pc' : Word} :
    PreciseTrap env (.trap t (s.save cycle' pc')) t (s.save cycle pc) pc ↔ pc' = pc := by
  rw [preciseTrap_trap_iff]
  constructor
  · intro h
    exact h.pc
  · rintro rfl
    have hs : s.save cycle' pc' = (s.save cycle pc').withCycle cycle' := rfl
    have htake : (t.take env (s.save cycle' pc')).1 =
        (t.take env (s.save cycle pc')).1.withCycle cycle' := by
      simp only [Trap.take, hafter, hs, raise_withCycle]
    refine ⟨rfl, rfl, rfl, ?_, ?_, ?_⟩ <;> rw [htake] <;> rfl

theorem pc_add_eq_iff (pc : Word) {n : Nat} (hn : n ≤ fuseMaxEntries) :
    pc = pc + BitVec.ofNat 32 (4 * n) ↔ n = 0 := by
  unfold fuseMaxEntries at hn
  constructor
  · intro h
    have h0 : BitVec.ofNat 32 (4 * n) = 0 := by
      have := congrArg (· - pc) h
      simpa [BitVec.add_comm pc, BitVec.add_sub_cancel] using this.symm
    have := congrArg BitVec.toNat h0
    simp only [BitVec.toNat_ofNat, BitVec.reduceToNat] at this
    omega
  · rintro rfl
    simp

/-! ## One group -/

theorem pair_split {ir next x : Insn} {l l' : List Insn} (h : [ir, next] = l ++ x :: l') :
    (l = [] ∧ x = ir) ∨ (l = [ir] ∧ x = next) := by
  cases l with
  | nil =>
    obtain ⟨rfl, -⟩ := List.cons_eq_cons.mp h
    exact .inl ⟨rfl, rfl⟩
  | cons a l =>
    obtain ⟨rfl, h'⟩ := List.cons_eq_cons.mp h
    cases l with
    | nil =>
      obtain ⟨rfl, -⟩ := List.cons_eq_cons.mp h'
      exact .inr ⟨rfl, rfl⟩
    | cons b l => simp at h'

theorem SeqFusion.after_of_error {env : Env} {p : Opcode → Bool} {op : Opcode} (hseq : SeqFusion p op)
    {f : OpcodeFuse} {s s' : Cpu} {t : Trap} (h : seqBody env op f s = .error (t, s')) :
    t.after = .retFalse := by
  cases hseq with
  | lui | addi => cases h
  | shift =>
    simp only [seqBody, fuseShiftExec] at h
    split at h <;> cases h
  | sw =>
    simp only [seqBody, fuseSw, checkAligned] at h
    split at h <;> cases h
    rfl
  | lw =>
    simp only [seqBody, fuseLw, checkAligned] at h
    split at h <;> cases h
    rfl

section Group

variable {env : Env} {x : Insn} {cycle cycle' : BitVec 64} {pc pc' : Word} {s s0 s' : Cpu} {t : Trap}

/-- A run of one kind of node: the trap carries the `PC` of the first entry. -/
theorem SeqFusion.precise_iff {p : Opcode → Bool} {op : Opcode} (hseq : SeqFusion p op) {ir : Insn}
    {l l1 l2 : List Insn} (hall : ∀ y ∈ ir :: l, p y.opcode = true) (hlen : l.length < fuseMaxEntries)
    (hl : ir :: l = l1 ++ x :: l2) (hrun : Rv32emu.runThrough env l1 cycle pc s = .next cycle' pc' s0)
    (htrap : impl env x {} false cycle' pc' s0 = .trap t s') (k : BitVec 64 → Word → Cpu → Ctl) :
    PreciseTrap env ((impl env { ir with opcode := op, imm2 := BitVec.ofNat 32 (l.length + 1),
                                         fuse := (ir :: l).map Insn.toFuse } {} false cycle pc s).andThen k)
      t s' pc' ↔ l1 = [] := by
  have hall1 : ∀ y ∈ l1, p y.opcode = true := fun y hy => hall y (by rw [hl]; simp [hy])
  have hstep := hseq.step env (hall x (by rw [hl]; simp)) cycle' pc' s0
  rw [htrap] at hstep
  -- The entries before the trap advance `PC` by four each.
  have hpc' : pc' = pc + BitVec.ofNat 32 (4 * l1.length) := by
    rcases hseq.runThrough env l1 hall1 cycle pc s with ⟨_, -, h⟩ | ⟨_, _, _, -, -, h⟩ <;>
      rw [hrun] at h <;> cases h
    rfl
  have hwhole : Rv32emu.runThrough env (ir :: l) cycle pc s = .trap t s' := by
    rw [hl, runThrough_append, hrun, Ctl.andThen_next, Rv32emu.runThrough, htrap]
    rfl
  have hl1 : l1.length ≤ fuseMaxEntries := by
    have := congrArg List.length hl
    simp only [List.length_cons, List.length_append] at this
    omega
  rw [hseq.impl_node env ir l hlen]
  rcases hseq.runThrough env (ir :: l) hall cycle pc s with ⟨_, -, h⟩ | ⟨_, s1, n, -, herr, h⟩ <;>
    rw [hwhole] at h <;> cases h
  rw [herr]
  cases hbody : seqBody env op x.toFuse s0 with
  | ok s1 =>
    rw [hbody] at hstep
    cases hstep
  | error e =>
    rw [hbody] at hstep
    injection hstep with ht hs
    have hn : pc' = pc + BitVec.ofNat 32 (4 * n) := (congrArg Cpu.PC hs).symm
    subst ht
    rw [hn]
    refine (preciseTrap_save_iff (hseq.after_of_error hbody)).trans ?_
    rw [← hn, hpc', pc_add_eq_iff pc hl1]
    exact List.length_eq_zero_iff

/-- A trap of the second node, reported at the first one. -/
theorem not_preciseTrap_second {tf : Trap} {sf : Cpu} :
    ¬ PreciseTrap env (.trap tf (sf.save cycle' pc)) t s' (pc + 4) := by
  intro h
  have h4 : pc = pc + BitVec.ofNat 32 (4 * 1) := (preciseTrap_trap_iff.mp h).pc
  exact absurd ((pc_add_eq_iff pc (by decide)).mp h4) (by decide)

/-- **One fused node.** A misaligned access or target is reported precisely iff the first node of the
group has it. -/
theorem FusedFrom.precise_iff {node : Insn} {l1 l2 : List Insn}
    (h : FusedFrom node (l1 ++ x :: l2)) (hfuse : node.opcode.isFuse = true)
    (hnf : ∀ y ∈ l1 ++ x :: l2, y.opcode.isFuse = false)
    (hrun : runThrough env l1 cycle pc s = .next cycle' pc' s0)
    (htrap : impl env x {} false cycle' pc' s0 = .trap t s')
    (hcause : t.cause = .loadMisaligned ∨ t.cause = .storeMisaligned ∨ t.cause = .insnMisaligned)
    (k : BitVec 64 → Word → Cpu → Ctl) :
    PreciseTrap env ((impl env node {} false cycle pc s).andThen k) t s' pc' ↔ l1 = [] := by
  generalize hl : l1 ++ x :: l2 = l at h hnf
  cases h with
  | same =>
    rw [hnf node (by simp)] at hfuse
    cases hfuse
  | seq hseq ir l hall hlen => exact hseq.precise_iff hall hlen hl.symm hrun htrap k
  | fuse2 ir next hop hnext =>
    rcases pair_split hl.symm with ⟨rfl, rfl⟩ | ⟨rfl, rfl⟩
    · rw [impl_lui hop] at htrap
      cases htrap
    · rw [impl_add hnext] at htrap
      cases htrap
  | fuse6 ir next hop hnext =>
    rcases pair_split hl.symm with ⟨rfl, rfl⟩ | ⟨rfl, rfl⟩
    · rw [impl_addi hop] at htrap
      cases htrap
    · simp only [impl, hnext, doRvop] at htrap
      cases htrap
      rcases hcause with h | h | h <;> cases h
  | fuse8 ir next hop hnext =>
    rcases pair_split hl.symm with ⟨rfl, rfl⟩ | ⟨rfl, rfl⟩
    · rw [impl_lui hop] at htrap
      cases htrap
    · rw [impl_addi hnext] at htrap
      cases htrap
  | fuse9 ir next hop hnext hrs1 =>
    rcases pair_split hl.symm with ⟨rfl, rfl⟩ | ⟨rfl, rfl⟩
    · rw [impl_lui hop] at htrap
      cases htrap
    · rw [runThrough_single, impl_lui hop] at hrun
      cases hrun
      rw [impl_lw hnext, ← hrs1, Cpu.setX_self] at htrap
      split_ifs at htrap with hm
      have hnode : impl env { ir with imm2 := x.imm, rs2 := x.rd, opcode := .fuse9 } {} false cycle pc s =
          .trap ⟨.loadMisaligned, ir.imm + x.imm, .retFalse⟩
            ({ s.setX ir.rd ir.imm with compressed := false }.save (cycle + 2) pc) := by
        simp only [impl, doFuse9, checkAligned, hm, if_true]
      rw [hnode]
      exact iff_of_false not_preciseTrap_second (by simp)
  | fuse10 ir next hop hnext hrs1 =>
    rcases pair_split hl.symm with ⟨rfl, rfl⟩ | ⟨rfl, rfl⟩
    · rw [impl_lui hop] at htrap
      cases htrap
    · rw [runThrough_single, impl_lui hop] at hrun
      cases hrun
      rw [impl_sw hnext, ← hrs1, Cpu.setX_self] at htrap
      split_ifs at htrap with hm
      have hnode : impl env { ir with imm2 := x.imm, rs1 := x.rs2, opcode := .fuse10 } {} false cycle pc s =
          .trap ⟨.storeMisaligned, ir.imm + x.imm, .retFalse⟩
            ({ s.setX ir.rd ir.imm with compressed := false }.save (cycle + 2) pc) := by
        simp only [impl, doFuse10, checkAligned, hm, if_true]
      rw [hnode]
      exact iff_of_false not_preciseTrap_second (by simp)
  | fuse11 ir next hop hnext hrs1 hrd hne =>
    rcases pair_split hl.symm with ⟨rfl, rfl⟩ | ⟨rfl, rfl⟩
    · cases hrun
      rw [impl_lw hop] at htrap
      split_ifs at htrap with hm
      cases htrap
      have hnode : impl env { x with imm2 := next.imm, opcode := .fuse11 } {} false cycle pc s =
          .trap ⟨.loadMisaligned, s.X x.rs1 + x.imm, .retFalse⟩
            ({ s with compressed := false }.save (cycle + 2) pc) := by
        simp only [impl, doFuse11, checkAligned, hm, if_true]
      rw [hnode]
      exact iff_of_true ((preciseTrap_save_iff rfl).mpr rfl) rfl
    · rw [impl_addi hnext] at htrap
      cases htrap
  | fuse12 ir next hop hnext =>
    rcases pair_split hl.symm with ⟨rfl, rfl⟩ | ⟨rfl, rfl⟩
    · rw [impl_addi hop] at htrap
      cases htrap
    · refine iff_of_false ?_ (by simp)
      rintro ⟨tf, sf, heq, -⟩
      rw [impl_fuse12 rfl] at heq
      cases heq

end Group

/-! ## Blocks -/

/-- **Traps inside a fused node are precise exactly at its first entry.** The unfused block falls
through the groups `pre` and the nodes `l1` of the fused group, and its node `x` then raises a
misaligned access or target. -/
theorem preciseTrap_iff (env : Env) (alloc : Word → Bool) {irs : List Insn} (hun : Unfused irs)
    {pre post : List (Insn × List Insn)} {node x : Insn} {l1 l2 : List Insn}
    (hgs : matchGroups alloc irs = pre ++ (node, l1 ++ x :: l2) :: post)
    (hfuse : node.opcode.isFuse = true) {cycle cycle' : BitVec 64} {pc pc' : Word} {s s0 s' : Cpu}
    (hrun : runThrough env (pre.flatMap Prod.snd ++ l1) cycle pc s = .next cycle' pc' s0) {t : Trap}
    (htrap : impl env x {} false cycle' pc' s0 = .trap t s')
    (hcause : t.cause = .loadMisaligned ∨ t.cause = .storeMisaligned ∨ t.cause = .insnMisaligned) :
    PreciseTrap env (runIr env (matchPattern alloc irs) cycle pc s) t s' pc' ↔ l1 = [] := by
  have hfused := matchGroups_fusedFrom alloc irs
  have hirs := matchGroups_snd alloc irs
  rw [hgs] at hfused hirs
  simp only [List.flatMap_append, List.flatMap_cons] at hirs
  rw [← hirs] at hun
  rw [runThrough_append] at hrun
  cases hpre : runThrough env (pre.flatMap Prod.snd) cycle pc s with
  | next cycle1 pc1 s1 =>
    rw [hpre, Ctl.andThen_next] at hrun
    have hpreRun := groups_runThrough env pre _ (by simp) (fun g hg => hfused g (by simp [hg])) hun hpre
    rw [← matchGroups_fst, hgs, List.map_append, List.map_cons, runIr_append, hpreRun, Ctl.andThen_next,
      runIr_cons]
    have hnf : ∀ y ∈ l1 ++ x :: l2, y.opcode.isFuse = false := fun y hy =>
      hun.not_fuse y (by simp only [List.mem_append] at hy ⊢; tauto)
    exact FusedFrom.precise_iff (hfused (node, l1 ++ x :: l2) (by simp)) hfuse hnf hrun htrap hcause _
  | enter | lookup | ret | trap =>
    rw [hpre] at hrun
    cases hrun

/-- `lw a1, x(a0); lw a2, y(a0)`. -/
def twoLoads (x y : Word) : List Insn :=
  [{ opcode := .lw, rd := 11, rs1 := 10, imm := x }, { opcode := .lw, rd := 12, rs1 := 10, imm := y, pc := 4 }]

/-- The two loads at address 0, with `a0 = 0x100`. -/
def twoLoadsCpu (x y : Word) : Cpu :=
  (Cpu.zero (Mem.writeW (Mem.writeW (fun _ => 0) 0 x) 4 y)).setX 10 0x100

theorem twoLoads_irBlock {i j x y : Word}
    (hx : rvDecode true i = .ok { opcode := .lw, rd := 11, rs1 := 10, imm := x }) (hi : insnLen i = 4)
    (hy : rvDecode true j = .ok { opcode := .lw, rd := 12, rs1 := 10, imm := y }) :
    IrBlock true 0 (twoLoads x y) := by
  refine .cons hx (fun h => by cases h) ?_
  rw [hi]
  exact .cons hy (fun h => by cases h) (.nil _)

theorem matchGroups_twoLoads (x y : Word) :
    matchGroups (fun _ => true) (twoLoads x y) =
      [({ opcode := .fuse4, rd := 11, rs1 := 10, imm := x, imm2 := 2,
          fuse := [⟨x, 11, 10, 0, .lw⟩, ⟨y, 12, 10, 0, .lw⟩] }, twoLoads x y)] := by
  simp [twoLoads, matchGroups, matchAt, tryFuseSequence, countConsecutive, fuseMaxEntries, Insn.toFuse]

/-- When the second load is the misaligned one the fused node traps with `rv->PC` at the first. -/
theorem not_preciseTrap_twoLoads :
    Unfused (twoLoads 0 1) ∧
      ∃ t s', runIr (Env.bare false) (twoLoads 0 1) 0 0 (twoLoadsCpu 0x00052583 0x00152603) = .trap t s' ∧
        t.cause = .loadMisaligned ∧ s'.PC = 4 ∧
        ¬ PreciseTrap (Env.bare false)
          (runIr (Env.bare false) (matchPattern (fun _ => true) (twoLoads 0 1)) 0 0
            (twoLoadsCpu 0x00052583 0x00152603)) t s' 4 := by
  have hblk : IrBlock true 0 (twoLoads 0 1) :=
    twoLoads_irBlock (show rvDecode true 0x00052583 = .ok _ from rfl) rfl
      (show rvDecode true 0x00152603 = .ok _ from rfl)
  refine ⟨hblk.unfused, _, _, rfl, rfl, rfl, ?_⟩
  rw [← matchGroups_fst, matchGroups_twoLoads]
  rintro ⟨tf, sf, heq, h⟩
  cases heq
  exact absurd h.pc (by decide)

/-- When the first load is the misaligned one the trap is the unfused one. -/
theorem preciseTrap_twoLoads :
    ∃ t s', runIr (Env.bare false) (twoLoads 1 0) 0 0 (twoLoadsCpu 0x00152583 0x00052603) = .trap t s' ∧
      PreciseTrap (Env.bare false)
        (runIr (Env.bare false) (matchPattern (fun _ => true) (twoLoads 1 0)) 0 0
          (twoLoadsCpu 0x00152583 0x00052603)) t s' 0 := by
  have hblk : IrBlock true 0 (twoLoads 1 0) :=
    twoLoads_irBlock (show rvDecode true 0x00152583 = .ok _ from rfl) rfl
      (show rvDecode true 0x00052603 = .ok _ from rfl)
  have hgs : matchGroups (fun _ => true) (twoLoads 1 0) = [] ++ (_, [] ++ _ :: _) :: [] :=
    matchGroups_twoLoads 1 0
  refine ⟨_, _, rfl, ?_⟩
  exact (preciseTrap_iff (Env.bare false) (fun _ => true) hblk.unfused hgs rfl rfl rfl (.inl rfl)).mpr rfl

end Rv32emu
