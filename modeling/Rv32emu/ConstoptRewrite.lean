import Rv32emu.ConstoptSound

/-!
# The rewrites of the constant optimiser

A node rewritten by `constopt` under a tracking that agrees with the registers runs like the
original (`constopt_result`). A folded ALU node ends its handler in exactly the same way
(`doRvop_loadImm`). A folded branch loses `is_branch_taken`, returns where the original falls
through and follows its link by itself, so the two are compared through `Ctl.result`.
-/

namespace Rv32emu

/-! ## What a handler computes -/

/-- The result of a body that is followed by the instruction at `next`. -/
def Flow.result (next : Word) (cycle : BitVec 64) : Flow → Result
  | .next s => ⟨next, cycle, none, s.arch⟩
  | .endOp pc s | .lookup pc s | .chain _ pc s => ⟨pc, cycle, none, s.arch⟩
  | .ret _ s => ⟨s.PC, s.csr.cycle, none, s.arch⟩
  | .trap t s => ⟨s.PC, s.csr.cycle, some t, s.arch⟩

theorem endOp_result (ir : Insn) (lk : Links) (cycle : BitVec 64) (pc : Word) (s : Cpu) :
    (endOp ir lk cycle pc s).result = ⟨pc, cycle, none, s.arch⟩ := by
  unfold endOp
  split <;> rfl

/-- The macro around a body adds nothing to its result. -/
theorem doRvop_result (env : Env) (ir : Insn) (lk : Links) (noNext : Bool) (cycle : BitVec 64)
    (pc : Word) (s : Cpu) :
    (doRvop env ir lk noNext cycle pc s).result =
      ((rvop ir.opcode).exec env ir lk (cycle + 1) pc s).result (pc + ir.opcode.len) (cycle + 1) := by
  simp only [doRvop]
  cases (rvop ir.opcode).exec env ir lk (cycle + 1) pc s with
  | next s1 =>
    cases noNext with
    | false => rfl
    | true => exact endOp_result ..
  | endOp pc1 s1 => exact endOp_result ..
  | lookup pc1 s1 | chain r pc1 s1 | ret ok s1 | trap t s1 => rfl

/-! ## Folded register writes -/

/-- A node that loads its immediate into the register another one computes ends like it. -/
theorem doRvop_loadImm {env : Env} {ir new : Insn} {dst : Insn → Reg}
    {val : Insn → (Reg → Word) → Word → Word} (hbody : rvop ir.opcode = .set dst val)
    (hnew : LoadsImm ir.opcode new.opcode) (hdst : new.rd = dst ir) {pc : Word} {s : Cpu}
    (hval : new.imm = val ir s.X pc) (lk : Links) (noNext : Bool) (cycle : BitVec 64) :
    doRvop env new lk noNext cycle pc s = doRvop env ir lk noNext cycle pc s := by
  simp only [doRvop, hbody, hnew.body, Code.exec, hnew.len, hdst, hval, endOp, hnew.noBranch,
    hnew.noBranch_new]

/-! ## Folded branches -/

/-- A jump from `pc`, with the alignment check of a build without `EXT_C`. -/
def jumpTo (env : Env) (pc target : Word) (cycle : BitVec 64) (s : Cpu) : Result :=
  if insnMisaligned env target then
    ⟨target, cycle, some ⟨.insnMisaligned, pc, .retFalse⟩, { s with compressed := false }.arch⟩
  else ⟨target, cycle, none, s.arch⟩

theorem and_three_toNat (x : Word) : (x &&& 3).toNat = x.toNat % 4 :=
  (BitVec.toNat_and ..).trans (Nat.and_two_pow_sub_one_eq_mod x.toNat 2)

theorem jumpTo_next {env : Env} {pc : Word} (h : env.extC = true ∨ pc &&& 3 = 0)
    (cycle : BitVec 64) (s : Cpu) : jumpTo env pc (pc + 4) cycle s = ⟨pc + 4, cycle, none, s.arch⟩ := by
  have hal : insnMisaligned env (pc + 4) = false := by
    unfold insnMisaligned
    rcases h with h | h
    · simp [h]
    · have hmod : pc.toNat % 4 = 0 := by rw [← and_three_toNat, h]; rfl
      have : (pc + 4) &&& 3 = 0 := by
        apply BitVec.eq_of_toNat_eq
        rw [and_three_toNat, BitVec.toNat_add]
        simp only [BitVec.reduceToNat]
        omega
      rw [this]
      simp
  rw [jumpTo, hal]
  rfl

theorem chainOr_result (link : Option Ref) (pc next : Word) (cycle : BitVec 64) (s : Cpu) :
    (chainOr link pc s).result next cycle = ⟨pc, cycle, none, s.arch⟩ := by
  cases link <;> rfl

theorem branch_result (env : Env) (untaken : Word → Word → Bool) (ir : Insn) (lk : Links)
    (cycle : BitVec 64) (pc : Word) (s : Cpu) :
    ((Code.branch untaken).exec env ir lk cycle pc s).result (pc + 4) cycle =
      if untaken (s.X ir.rs1) (s.X ir.rs2) then ⟨pc + 4, cycle, none, s.arch⟩
      else jumpTo env pc (pc + ir.imm) cycle s := by
  simp only [Code.exec, jumpTo]
  split_ifs <;> rfl

theorem cbranch_result (env : Env) (untaken : Word → Bool) (ir : Insn) (lk : Links)
    (cycle : BitVec 64) (pc : Word) (s : Cpu) :
    ((Code.cbranch untaken).exec env ir lk cycle pc s).result (pc + 2) cycle =
      if untaken (s.X ir.rs1) then ⟨pc + 2, cycle, none, s.arch⟩
      else ⟨pc + ir.imm, cycle, none, s.arch⟩ := by
  simp only [Code.exec]
  split_ifs
  · exact chainOr_result ..
  · rfl
  · exact chainOr_result ..

theorem doRvop_jal_result (env : Env) {ir : Insn} (hop : ir.opcode = .jal) (hrd : ir.rd = 0)
    (lk : Links) (noNext : Bool) (cycle : BitVec 64) (pc : Word) (s : Cpu) :
    (doRvop env ir lk noNext cycle pc s).result = jumpTo env pc (pc + ir.imm) (cycle + 1) s := by
  rw [doRvop_result, hop]
  simp only [rvop]
  have hs : s.setXNz ir.rd (pc + 4) = s := by simp [Cpu.setXNz, hrd]
  simp only [Code.exec, jumpTo, hs]
  split_ifs
  · rfl
  · exact chainOr_result ..

theorem doRvop_cj_result (env : Env) {ir : Insn} (hop : ir.opcode = .cj) (lk : Links) (noNext : Bool)
    (cycle : BitVec 64) (pc : Word) (s : Cpu) :
    (doRvop env ir lk noNext cycle pc s).result = ⟨pc + ir.imm, cycle + 1, none, s.arch⟩ := by
  rw [doRvop_result, hop]
  exact chainOr_result ..

/-! ## Every rule -/

theorem RuleFor.result {env : Env} (ir : Insn) {f : Fold}
    (hrule : RuleFor ir.opcode (rvop ir.opcode) f) (hwf : ir.WellFormed) {info : ConstoptInfo}
    {s : Cpu} (hag : Agrees info s.X)
    (hpc : env.extC = true ∨ ir.pc &&& 3 = 0) (lk : Links) (noNext : Bool) (cycle : BitVec 64) :
    (doRvop env (f.run ir info).1 lk noNext cycle ir.pc s).result =
      (doRvop env ir lk noNext cycle ir.pc s).result := by
  generalize hc : rvop ir.opcode = c at hrule
  cases hrule with
  | keep | known | bitManip | load | csr | lrw | amo | fpuX | jal | jalr | cjal => rfl
  | auipc hnew h =>
    apply congrArg
    apply doRvop_loadImm hc hnew
    · rfl
    · exact (h ..).symm
  | @fold1 val new src g hnew h =>
    simp only [Fold.run]
    split
    · rename_i hcst
      apply congrArg
      apply doRvop_loadImm hc hnew
      · rfl
      · rw [h, hag _ hcst]
    · rfl
  | @fold2 val new g hnew h =>
    simp only [Fold.run]
    split
    · rename_i hcst
      apply congrArg
      apply doRvop_loadImm hc hnew
      · rfl
      · rw [h, hag _ hcst.1, hag _ hcst.2]
    · rfl
  | @inPlace val reg g hnew h =>
    simp only [Fold.run]
    split
    · rename_i hcst
      apply congrArg
      apply doRvop_loadImm hc hnew
      · rfl
      · rw [h, hag _ hcst]
    · rfl
  | @branch untaken hop hbr hlen =>
    simp only [Fold.run]
    split
    · rename_i hcst
      refine (doRvop_jal_result env ?_ ?_ lk noNext cycle ir.pc s).trans ?_
      · rfl
      · exact hwf.branch_rd hop
      rw [doRvop_result env ir, hc, hlen, branch_result, hag _ hcst.1, hag _ hcst.2]
      simp only
      split_ifs
      · exact jumpTo_next hpc ..
      · rfl
    · rfl
  | @cbranch untaken hbr hlen =>
    simp only [Fold.run]
    split
    · rename_i hcst
      refine (doRvop_cj_result env ?_ lk noNext cycle ir.pc s).trans ?_
      · rfl
      rw [doRvop_result env ir, hc, hlen, cbranch_result, hag _ hcst]
      simp only
      split_ifs <;> rfl
    · rfl

/-- **The rewrites preserve meaning.** A decoded node and its rewriting, run at the address it was
decoded from in a state that agrees with the tracking, leave the same registers, memory, next `PC`,
cycle count and trap. Without `EXT_C` the address has to be aligned, since a branch folded to a
`jal` over 4 bytes checks its target. -/
theorem constopt_result {env : Env} {insn : Word} {ir : Insn} (hdec : rvDecode env.extC insn = .ok ir)
    {pc : Word} (hpc : env.extC = true ∨ pc &&& 3 = 0) {info : ConstoptInfo} {s : Cpu}
    (hag : Agrees info s.X) (lk : Links) (noNext : Bool) (cycle : BitVec 64) :
    (doRvop env (constopt { ir with pc } info).1 lk noNext cycle pc s).result =
      (doRvop env { ir with pc } lk noNext cycle pc s).result := by
  have hwf := (rvDecode_wellFormed hdec).setPc pc
  by_cases hnop : ir.opcode = .nop
  · simp only [constopt, hnop, constoptRule, Fold.run]
  by_cases hscw : ir.opcode = .scw
  · simp only [constopt, hscw, constoptRule, Fold.run]
  by_cases hcjalr : ir.opcode = .cjalr
  · simp only [constopt, hcjalr, constoptRule, Fold.run]
  exact RuleFor.result { ir with pc } (ruleFor ir.opcode hnop hscw hcjalr) hwf hag hpc lk noNext cycle

/-- `div a0, a1, a2`. -/
def divNode : Insn := { opcode := .div, rd := 10, rs1 := 11, rs2 := 12 }

/-- The overflowing operands of `divNode`, as the tracker and as the machine know them. -/
def overflowInfo : ConstoptInfo := (ConstoptInfo.init.know 11 0x80000000).know 12 0xffffffff

def overflowCpu : Cpu := ((Cpu.zero fun _ => 0).setX 11 0x80000000).setX 12 0xffffffff

/-- `-2^31 / -1` is folded to a `lui` that runs like the division. -/
theorem constopt_result_divNode :
    (constopt divNode overflowInfo).1.opcode = .lui ∧
      (doRvop (Env.bare false) (constopt divNode overflowInfo).1 {} false 0 0 overflowCpu).result =
        (doRvop (Env.bare false) divNode {} false 0 0 overflowCpu).result := by
  have hdec : rvDecode (Env.bare false).extC 0x02c5c533 = .ok divNode := rfl
  refine ⟨rfl, constopt_result hdec (.inl rfl) ?_ {} false 0⟩
  refine Agrees.know (Agrees.know ?_ 11 _) 12 _
  intro r _
  rfl

end Rv32emu
