import Rv32emu.T2cSound

/-!
# The base instructions in tier 2

`t2c_agrees_iff` : the code a `T2C_OP` handler emits for a translatable base instruction reaches no undefined
operation and leaves the registers, the memory and the next `PC` of the interpreter exactly in the states of
`T2cDefined`. The rows of the two tables are compared shape by shape.
-/

namespace Rv32emu

open Llvm

section Shapes

variable {env : Env} {cfg : T2cEnv} {lk : T2cLinks} {ir : Insn} {r : Regs HostPtr} {s : T2cState}
  {links : Links} {noNext : Bool} {cycle : BitVec 64} {code : T2cBuild Handed}

theorem t2cAgrees_load (hfuse : ir.opcode.isFuse = false) (hcode : t2c cfg lk ir = code)
    {off : Option (BitVec 64)} {val : BitVec 64 → Word}
    (hrun : t2cRun env cfg code r s = off.map fun off => wrote s ir.rd (val off))
    {compress : Bool} {mask : Word} {addr : Insn → (Reg → Word) → Word} {read : Cpu → Word → Word}
    (hrow : rvop ir.opcode = .load compress mask addr read)
    (hal : misaligned env mask (addr ir s.cpu.X) = false) (hoff : off = some (memOff (addr ir s.cpu.X)))
    (hval : val (memOff (addr ir s.cpu.X)) = read s.cpu (addr ir s.cpu.X)) :
    T2cAgrees env cfg lk ir r s links noNext cycle := by
  rw [hoff] at hrun
  rw [t2cAgrees_iff hfuse, hrow,
    t2cVisible_of_run (ir.pc + ir.nodeLen) (x := wrote s ir.rd (val (memOff (addr ir s.cpu.X)))) hrun hcode
      rfl, Insn.nodeLen_of_not_fuse hfuse]
  simp only [hval, Code.exec, hal, Bool.false_eq_true, if_false]
  rfl

theorem t2cAgrees_store (hfuse : ir.opcode.isFuse = false) (hcode : t2c cfg lk ir = code)
    {off : Option (BitVec 64)} {mem : BitVec 64 → Mem}
    (hrun : t2cRun env cfg code r s = off.map fun off => stored s (mem off)) {compress : Bool} {mask : Word}
    {addr : Insn → (Reg → Word) → Word} {write : Cpu → Word → Word → Cpu}
    (hrow : rvop ir.opcode = .store compress mask addr write)
    (hal : misaligned env mask (addr ir s.cpu.X) = false) (hoff : off = some (memOff (addr ir s.cpu.X)))
    (hmem : write s.cpu (addr ir s.cpu.X) (s.cpu.X ir.rs2) =
      { s.cpu with mem := mem (memOff (addr ir s.cpu.X)) }) :
    T2cAgrees env cfg lk ir r s links noNext cycle := by
  rw [hoff] at hrun
  rw [t2cAgrees_iff hfuse, hrow,
    t2cVisible_of_run (ir.pc + ir.nodeLen) (x := stored s (mem (memOff (addr ir s.cpu.X)))) hrun hcode rfl,
    Insn.nodeLen_of_not_fuse hfuse]
  simp only [Code.exec, hal, Bool.false_eq_true, if_false, hmem]
  rfl

theorem t2cAgrees_branch (hext : env.extC = true) (hfuse : ir.opcode.isFuse = false) (hlk : lk.Right ir)
    {p : Pred} (hcode : t2c cfg lk ir = t2cOp (t2cBranchFunc cfg lk p ir)) {untaken : Word → Word → Bool}
    (hrow : rvop ir.opcode = .branch untaken) (hlen : ir.opcode.len = 4)
    (hp : ∀ x y : Word, p.eval x y = !untaken x y) :
    T2cAgrees env cfg lk ir r s links noNext cycle := by
  have hop : ir.opcode ≠ .fuse12 := by
    intro h
    rw [h] at hfuse
    cases hfuse
  rw [t2cAgrees_iff hfuse, hrow, hlen, branch_visible hext,
    t2cVisible_branch hcode (run_branchFunc env cfg r s lk p ir) T2cEnv.valid_isSome T2cEnv.valid_isSome
      (fun pc h => by rw [hlk.taken pc h, Insn.linkTaken, if_neg hop])
      (fun pc h => by rw [hlk.untaken pc h, Insn.linkUntaken, if_neg hop, hlen]), hp]
  cases untaken (s.cpu.X ir.rs1) (s.cpu.X ir.rs2) <;> rfl

theorem t2cAgrees_cbranch (hfuse : ir.opcode.isFuse = false) (hlk : lk.Right ir) {p : Pred}
    (hcode : t2c cfg lk ir = t2cOp (t2cCBranch lk p ir)) {untaken : Word → Bool}
    (hrow : rvop ir.opcode = .cbranch untaken) (hlen : ir.opcode.len = 2)
    (hp : ∀ x : Word, p.eval x 0 = !untaken x) :
    T2cAgrees env cfg lk ir r s links noNext cycle := by
  have hop : ir.opcode ≠ .fuse12 := by
    intro h
    rw [h] at hfuse
    cases hfuse
  rw [t2cAgrees_iff hfuse, hrow, hlen, cbranch_visible,
    t2cVisible_branch hcode (run_cbranch env cfg r s lk p ir) id id
      (fun pc h => by rw [hlk.taken pc h, Insn.linkTaken, if_neg hop])
      (fun pc h => by rw [hlk.untaken pc h, Insn.linkUntaken, if_neg hop, hlen]), hp]
  cases untaken (s.cpu.X ir.rs1) <;> rfl

theorem t2cAgrees_jump (hfuse : ir.opcode.isFuse = false) (hlk : lk.Right ir) (hcode : t2c cfg lk ir = code)
    {s1 : T2cState} {chain : Bool} (hchain : chain = true → lk.taken.isSome = true)
    (hrun : t2cRun env cfg code r s =
      some ({ taken := if chain then some 0 else none }, chained s1 chain 0 (ir.pc + ir.imm)))
    (hrow : ((rvop ir.opcode).exec env ir links (cycle + 1) ir.pc s.cpu).visible env (ir.pc + ir.opcode.len) =
      s1.cpu.visibleAt (ir.pc + ir.imm)) :
    T2cAgrees env cfg lk ir r s links noNext cycle := by
  have hop : ir.opcode ≠ .fuse12 := by
    intro h
    rw [h] at hfuse
    cases hfuse
  rw [t2cAgrees_iff hfuse, hrow, t2cVisible_jump hcode hrun hchain]
  intro pc h
  rw [hlk.taken pc h, Insn.linkTaken, if_neg hop]

theorem t2cAgrees_indirect {mb : BitVec 64} {chk : Word → Bool} (hfuse : ir.opcode.isFuse = false)
    (hcode : t2c ⟨false, mb, chk⟩ lk ir = code) {addr : Word} {s1 : T2cState}
    (hexec : ∃ f, code {} = some ({}, f) ∧ f.exec (t2cHost env mb) r s = indirect env mb addr s1)
    (hpub : s1.Published)
    (hrow : ((rvop ir.opcode).exec env ir links (cycle + 1) ir.pc s.cpu).visible env (ir.pc + ir.opcode.len) =
      s1.cpu.visibleAt addr) :
    T2cAgrees env ⟨false, mb, chk⟩ lk ir r s links noNext cycle := by
  rw [t2cAgrees_iff hfuse, hrow, t2cVisible_indirect hcode hexec hpub]

/-- The link register of `jal` and `jalr`. -/
theorem link_cpu (rd : Reg) (link : Word) :
    (if rd = 0 then s.tick else s.tick.setX rd link).cpu = s.cpu.setXNz rd link := by
  unfold Cpu.setXNz
  by_cases hrd : rd = 0
  · rw [if_pos hrd, if_neg (not_not.mpr hrd)]
    rfl
  · rw [if_neg hrd, if_pos hrd]
    rfl

theorem jal_visible (hext : env.extC = true) (next : Word) :
    (Code.jal.exec env ir links cycle ir.pc s.cpu).visible env next =
      (s.cpu.setXNz ir.rd (ir.pc + 4)).visibleAt (ir.pc + ir.imm) := by
  have hmis (pc : Word) : insnMisaligned env pc = false := by simp [insnMisaligned, hext]
  simp only [Code.exec, hmis, Bool.false_eq_true, if_false]
  exact chainOr_visible ..

theorem jalr_visible (hext : env.extC = true) (next : Word) :
    (Code.jalr.exec env ir links cycle ir.pc s.cpu).visible env next =
      (s.cpu.setXNz ir.rd (ir.pc + 4)).visibleAt ((s.cpu.X ir.rs1 + ir.imm) &&& ~~~1) := by
  have hmis (pc : Word) : insnMisaligned env pc = false := by simp [insnMisaligned, hext]
  simp only [Code.exec, hmis, Bool.false_eq_true, if_false]
  rfl

theorem exec_jalr (mb : BitVec 64) (chk : Word → Bool) :
    ∃ f, t2cOp (t2cJalr ⟨false, mb, chk⟩ ir) {} = some ({}, f) ∧
      f.exec (t2cHost env mb) r s = indirect env mb ((s.cpu.X ir.rs1 + ir.imm) &&& ~~~1)
        (if ir.rd = 0 then s.tick else s.tick.setX ir.rd (ir.pc + 4)) := by
  refine exec_jalr_link env r s mb chk ir (storeLink ir.rd (ir.pc + 4)) ?_
  unfold storeLink
  by_cases hrd : ir.rd = 0
  · exact .inl ⟨if_pos hrd, if_pos hrd⟩
  · exact .inr ⟨if_neg hrd, if_neg hrd⟩

/-- A trap agrees exactly if the trap handler finds the length of the instruction. -/
theorem t2cAgrees_trap (henv : env.SyscallLocal) (hfuse : ir.opcode.isFuse = false) {f : IoFn} {t : Trap}
    {c : Bool} (hcode : t2c cfg lk ir = t2cOp (t2cTrap f ir.pc)) (ht : t.Plain)
    (hio : ioTrap env f (s.setPC ir.pc).cpu = some (t.take env (s.setPC ir.pc).cpu).1)
    (hrow : (rvop ir.opcode).exec env ir links (cycle + 1) ir.pc s.cpu =
      .trap t ((s.setPC ir.pc).cpu.tweak c (cycle + 1))) :
    T2cAgrees env cfg lk ir r s links noNext cycle ↔ s.cpu.LengthOk c := by
  rw [t2cAgrees_iff hfuse, hrow,
    t2cVisible_of_run (t.take env (s.setPC ir.pc).cpu).1.PC (run_trap env cfg r s hio) hcode rfl,
    Option.some_inj]
  exact ht.take_agrees_iff (s := (s.setPC ir.pc).cpu) henv

end Shapes

/-! ## The table -/

theorem T2cState.Published.setX {s : T2cState} (h : s.Published) (rd : Reg) (v : Word) :
    (s.tick.setX rd v).Published := h

theorem update_zero_eq_iff (X : Reg → Word) : X = Function.update X regZero 0 ↔ X regZero = 0 := by
  constructor
  · intro h
    rw [h]
    simp
  · intro h
    rw [← h, Function.update_eq_self]

/-- `c.addi4spn` extends with the sign, the interpreter with zeros. -/
theorem addImm_eval_iff (x imm : Word) :
    BinOp.eval x ((imm.setWidth 16).signExtend 32) .add = some (x + (imm.setWidth 16).setWidth 32) ↔
      imm.getLsbD 15 = false := by
  rw [← signExtend_eq_iff]
  constructor
  · intro h
    exact add_left_cancel (Option.some_inj.mp h)
  · intro h
    rw [h]
    rfl

theorem signExtendB_setWidth (b : Byte) : signExtendB (b.setWidth 32) = b.signExtend 32 := by
  unfold signExtendB
  rw [BitVec.setWidth_setWidth_of_le _ (by decide), BitVec.setWidth_eq]

theorem signExtendH_setWidth (b : BitVec 16) : signExtendH (b.setWidth 32) = b.signExtend 32 := by
  unfold signExtendH
  rw [BitVec.setWidth_setWidth_of_le _ (by decide), BitVec.setWidth_eq]

/-- `c.mv`. -/
theorem run_copy (env : Env) (cfg : T2cEnv) (r : Regs HostPtr) (s : T2cState) (rs rd : Reg) :
    t2cRun env cfg (t2cOp (do
      let val2 ← loadVmreg 0 32 rs
      storeVmreg 0 val2 rd
      return {})) r s = (some (s.cpu.X rs)).map (wrote s rd) := rfl

theorem slt_eq_not_sle (x y : Word) : Pred.eval x y .slt = !(y.sle x) := by
  simp [Pred.eval, BitVec.slt, BitVec.sle, ← decide_not]

theorem sle_eq_not_slt (x y : Word) : Pred.eval x y .sge = !(x.slt y) := by
  simp [Pred.eval, BitVec.slt, BitVec.sle, ← decide_not]

theorem ult_eq_not_ule (x y : Word) : Pred.eval x y .ult = !(y.ule x) := by
  simp [Pred.eval, BitVec.ult, BitVec.ule, ← decide_not]

theorem ule_eq_not_ult (x y : Word) : Pred.eval x y .uge = !(x.ult y) := by
  simp [Pred.eval, BitVec.ult, BitVec.ule, ← decide_not]

/-- **Tier-2 code of a base instruction means what the interpreter does exactly where it is defined.** -/
theorem t2c_agrees_iff {env : Env} (hext : env.extC = true) (henv : env.SyscallLocal) {cfg : T2cEnv}
    (hcfg : cfg.system = false) {lk : T2cLinks} {ir : Insn} (htr : ir.opcode.translatable = true)
    (hlk : lk.Right ir) {s : T2cState} (hpub : s.Published) (hacc : ir.AccessOk s.cpu) (r : Regs HostPtr)
    (links : Links) (noNext : Bool) (cycle : BitVec 64) :
    T2cAgrees env cfg lk ir r s links noNext cycle ↔ T2cDefined ir s.cpu := by
  obtain ⟨sys, mb, chk⟩ := cfg
  obtain rfl : sys = false := hcfg
  obtain ⟨imm, rd, rs1, rs2, opcode, shamt, rm, imm2, fuse, pc⟩ := ir
  have hmis (pc : Word) : insnMisaligned env pc = false := by simp [insnMisaligned, hext]
  cases opcode
  case nop =>
    rw [t2cAgrees_iff rfl, t2cVisible_of_run (pc + 4) (run_skip env _ r s) rfl rfl, Option.some_inj]
    exact (Visible.mk.injEq ..).to_iff.trans (by
      rw [and_iff_left ⟨rfl, rfl⟩]
      exact update_zero_eq_iff s.cpu.X)
  case cnop =>
    rw [t2cAgrees_iff rfl, t2cVisible_of_run (pc + 2) (run_skip env _ r s) rfl rfl]
    exact iff_of_true rfl trivial
  case lui | cli | clui =>
    exact iff_of_true (t2cAgrees_value (run_storeImm ..) (by rfl) (by rfl) (by rfl) (by rfl)
      (by rfl)) trivial
  case auipc =>
    exact iff_of_true (t2cAgrees_value (run_storeImm ..) (by rfl) (by rfl) (by rfl) (by rfl)
      (by exact congrArg some (BitVec.add_comm ..))) trivial
  case addi | xori | ori | andi =>
    exact iff_of_true (t2cAgrees_value (run_aluImm ..) (by rfl) (by rfl) (by rfl) (by rfl)
      (by rfl)) trivial
  case slli =>
    exact iff_of_true (t2cAgrees_value (run_aluImm ..) (by rfl) (by rfl) (by rfl) (by rfl)
      (by exact shl_defined ..)) trivial
  case srli =>
    exact iff_of_true (t2cAgrees_value (run_aluImm ..) (by rfl) (by rfl) (by rfl) (by rfl)
      (by exact lshr_defined ..)) trivial
  case srai =>
    exact iff_of_true (t2cAgrees_value (run_aluImm ..) (by rfl) (by rfl) (by rfl) (by rfl)
      (by exact ashr_defined ..)) trivial
  case slti | sltiu =>
    exact iff_of_true (t2cAgrees_value (run_setImm ..) (by rfl) (by rfl) (by rfl) (by rfl)
      (by rfl)) trivial
  case slt | sltu =>
    exact iff_of_true (t2cAgrees_value (run_set ..) (by rfl) (by rfl) (by rfl) (by rfl)
      (by rfl)) trivial
  case add | sub | xor | or | and | csub | cxor | cor | cand | cadd =>
    exact iff_of_true (t2cAgrees_value (run_alu ..) (by rfl) (by rfl) (by rfl) (by rfl)
      (by rfl)) trivial
  case sll =>
    exact iff_of_true (t2cAgrees_value (run_shift ..) (by rfl) (by rfl) (by rfl) (by rfl)
      (by exact shl_defined ..)) trivial
  case srl =>
    exact iff_of_true (t2cAgrees_value (run_shift ..) (by rfl) (by rfl) (by rfl) (by rfl)
      (by exact lshr_defined ..)) trivial
  case sra =>
    exact iff_of_true (t2cAgrees_value (run_shift ..) (by rfl) (by rfl) (by rfl) (by rfl)
      (by exact ashr_defined ..)) trivial
  case div =>
    refine Iff.trans (t2cAgrees_set (run_alu ..) (by rfl) (by rfl) (by rfl) (by rfl)) ?_
    exact sdiv_eval_iff ..
  case divu =>
    refine Iff.trans (t2cAgrees_set (run_alu ..) (by rfl) (by rfl) (by rfl) (by rfl)) ?_
    exact udiv_eval_iff ..
  case rem =>
    refine Iff.trans (t2cAgrees_set (run_alu ..) (by rfl) (by rfl) (by rfl) (by rfl)) ?_
    exact srem_eval_iff ..
  case remu =>
    refine Iff.trans (t2cAgrees_set (run_alu ..) (by rfl) (by rfl) (by rfl) (by rfl)) ?_
    exact urem_eval_iff ..
  case mul | mulh | mulhsu | mulhu =>
    exact iff_of_true (t2cAgrees_value (run_mul ..) (by rfl) (by rfl) (by rfl) (by rfl)
      (by rfl)) trivial
  case caddi4spn =>
    refine Iff.trans (t2cAgrees_set (run_aluImm ..) (by rfl) (by rfl) (by rfl) (by rfl)) ?_
    exact addImm_eval_iff ..
  case caddi | caddi16sp | candi =>
    exact iff_of_true (t2cAgrees_value (run_update ..) (by rfl) (by rfl) (by rfl) (by rfl)
      (by rfl)) trivial
  case csrli =>
    refine Iff.trans (t2cAgrees_set (run_update ..) (by rfl) (by rfl) (by rfl) (by rfl)) ?_
    exact lshr_eval_iff ..
  case csrai =>
    refine Iff.trans (t2cAgrees_set (run_update ..) (by rfl) (by rfl) (by rfl) (by rfl)) ?_
    exact ashr_eval_iff ..
  case cslli =>
    refine Iff.trans (t2cAgrees_set (run_update ..) (by rfl) (by rfl) (by rfl) (by rfl)) ?_
    exact shl_eval_iff ..
  case beq =>
    exact iff_of_true (t2cAgrees_branch hext rfl hlk rfl rfl rfl fun x y => by simp [Pred.eval, bne]) trivial
  case bne =>
    exact iff_of_true (t2cAgrees_branch hext rfl hlk rfl rfl rfl fun x y => by simp [Pred.eval, bne]) trivial
  case blt => exact iff_of_true (t2cAgrees_branch hext rfl hlk rfl rfl rfl slt_eq_not_sle) trivial
  case bge => exact iff_of_true (t2cAgrees_branch hext rfl hlk rfl rfl rfl sle_eq_not_slt) trivial
  case bltu => exact iff_of_true (t2cAgrees_branch hext rfl hlk rfl rfl rfl ult_eq_not_ule) trivial
  case bgeu => exact iff_of_true (t2cAgrees_branch hext rfl hlk rfl rfl rfl ule_eq_not_ult) trivial
  case cbeqz =>
    exact iff_of_true (t2cAgrees_cbranch rfl hlk rfl rfl rfl fun x => by simp [Pred.eval, bne]) trivial
  case cbnez =>
    exact iff_of_true (t2cAgrees_cbranch rfl hlk rfl rfl rfl fun x => by simp [Pred.eval, bne]) trivial
  case ecall => exact t2cAgrees_trap henv rfl rfl ⟨.inl rfl, .inl rfl⟩ rfl rfl
  case ebreak | cebreak => exact t2cAgrees_trap henv rfl rfl ⟨.inr rfl, .inr rfl⟩ rfl rfl
  case jal =>
    refine iff_of_true (t2cAgrees_jump rfl hlk rfl T2cEnv.valid_isSome (run_jal ..) ?_) trivial
    rw [Cpu.visibleAt, link_cpu]
    exact jal_visible hext _
  case cjal =>
    refine iff_of_true (t2cAgrees_jump rfl hlk rfl (fun h => h) (run_cjal ..) ?_) trivial
    exact chainOr_visible ..
  case cj =>
    refine iff_of_true (t2cAgrees_jump rfl hlk rfl (fun h => h) (run_jump ..) ?_) trivial
    exact chainOr_visible ..
  case cjr => exact iff_of_true (t2cAgrees_indirect rfl rfl (exec_cjr ..) hpub rfl) trivial
  case cjalr => exact iff_of_true (t2cAgrees_indirect rfl rfl (exec_cjalr ..) hpub rfl) trivial
  case jalr =>
    refine iff_of_true (t2cAgrees_indirect rfl rfl (exec_jalr mb chk) ?_ ?_) trivial
    · split_ifs <;> exact hpub
    · rw [Cpu.visibleAt, link_cpu]
      exact jalr_visible hext _
  case lb =>
    obtain ⟨hin, hal⟩ := hacc 1 rfl
    exact iff_of_true (t2cAgrees_load rfl rfl (run_load8 ..) rfl (not_misaligned hal (.inl ⟨rfl, rfl⟩))
      (guestOffset_hostAddr mb hin hal) (signExtendB_setWidth _).symm) trivial
  case lbu =>
    obtain ⟨hin, hal⟩ := hacc 1 rfl
    exact iff_of_true (t2cAgrees_load rfl rfl (run_load8 ..) rfl (not_misaligned hal (.inl ⟨rfl, rfl⟩))
      (guestOffset_hostAddr mb hin hal) rfl) trivial
  case lh =>
    obtain ⟨hin, hal⟩ := hacc 2 rfl
    exact iff_of_true (t2cAgrees_load rfl rfl (run_load16 ..) rfl
      (not_misaligned hal (.inr (.inl ⟨rfl, rfl⟩))) (guestOffset_hostAddr mb hin hal)
      (signExtendH_setWidth _).symm) trivial
  case lhu =>
    obtain ⟨hin, hal⟩ := hacc 2 rfl
    exact iff_of_true (t2cAgrees_load rfl rfl (run_load16 ..) rfl
      (not_misaligned hal (.inr (.inl ⟨rfl, rfl⟩))) (guestOffset_hostAddr mb hin hal) rfl) trivial
  case lw | clw | clwsp =>
    obtain ⟨hin, hal⟩ := hacc 4 rfl
    exact iff_of_true (t2cAgrees_load rfl rfl (run_load32 ..) rfl
      (not_misaligned hal (.inr (.inr ⟨rfl, rfl⟩))) (guestOffset_hostAddr mb hin hal) rfl) trivial
  case sb =>
    obtain ⟨hin, hal⟩ := hacc 1 rfl
    exact iff_of_true (t2cAgrees_store rfl rfl (run_store8 ..) rfl (not_misaligned hal (.inl ⟨rfl, rfl⟩))
      (guestOffset_hostAddr mb hin hal) rfl) trivial
  case sh =>
    obtain ⟨hin, hal⟩ := hacc 2 rfl
    exact iff_of_true (t2cAgrees_store rfl rfl (run_store16 ..) rfl
      (not_misaligned hal (.inr (.inl ⟨rfl, rfl⟩))) (guestOffset_hostAddr mb hin hal) rfl) trivial
  case sw | csw =>
    obtain ⟨hin, hal⟩ := hacc 4 rfl
    exact iff_of_true (t2cAgrees_store rfl rfl (run_store32 ..) rfl
      (not_misaligned hal (.inr (.inr ⟨rfl, rfl⟩))) (guestOffset_hostAddr mb hin hal) rfl) trivial
  case cswsp =>
    obtain ⟨hin, hal⟩ := hacc 4 rfl
    exact iff_of_true (t2cAgrees_store rfl rfl (run_cswsp ..) rfl
      (not_misaligned hal (.inr (.inr ⟨rfl, rfl⟩))) (guestOffset_hostAddr mb hin hal) rfl) trivial
  case cmv =>
    exact iff_of_true (t2cAgrees_value (run_copy ..) (by rfl) (by rfl) (by rfl) (by rfl) (by rfl)) trivial
  case cflwsp | cfswsp | cflw | cfsw => exact iff_of_false (fun h => by cases h) id
  all_goals cases htr

/-- A process with `a0 = 7`, other registers and tables empty. -/
def warm : T2cState where
  cpu := (Cpu.zero fun _ => 0).setX 10 7
  insnCounter := 0
  tables _ _ := {}

theorem warm_published : warm.Published := by
  intro t i pc h
  cases h

/-- `rem a1, a2, a0`. -/
def remNode : Insn := { opcode := .rem, rd := 11, rs1 := 12, rs2 := 10 }

theorem t2c_agrees_rem :
    T2cDefined remNode warm.cpu ∧ ∀ r links noNext cycle,
      T2cAgrees (Env.bare false) ⟨false, 0, fun _ => false⟩ {} remNode r warm links noNext cycle := by
  have hdef : T2cDefined remNode warm.cpu := by
    refine ⟨by decide, fun h => ?_⟩
    exact absurd h.1 (by decide)
  refine ⟨hdef, fun r links noNext cycle => ?_⟩
  refine (t2c_agrees_iff rfl ⟨fun _ _ => rfl, fun _ _ _ _ => rfl, fun _ _ _ _ => rfl⟩ rfl rfl ⟨?_, ?_⟩
    warm_published ?_ r links noNext cycle).mpr hdef
  · intro pc h
    cases h
  · intro pc h
    cases h
  · intro n h
    cases h

/-- `div a1, a0, x0`. -/
def divZeroNode : Insn := { opcode := .div, rd := 11, rs1 := 10, rs2 := 0 }

/-- A division by zero is undefined in the emitted code; the interpreter stores -1 and goes on. -/
theorem t2c_div_zero_undefined :
    divZeroNode.opcode.translatable = true ∧ ∀ r links noNext cycle,
      t2cVisible (Env.bare false) ⟨false, 0, fun _ => false⟩ {} divZeroNode r warm = none ∧
      (impl (Env.bare false) divZeroNode links noNext cycle 0 warm.cpu).visible (Env.bare false) =
        (warm.cpu.setX 11 0xffffffff).visibleAt 4 ∧
      ¬ T2cAgrees (Env.bare false) ⟨false, 0, fun _ => false⟩ {} divZeroNode r warm links noNext cycle := by
  refine ⟨rfl, fun r links noNext cycle => ?_⟩
  have hnone : t2cVisible (Env.bare false) ⟨false, 0, fun _ => false⟩ {} divZeroNode r warm = none :=
    (t2cVisible_wrote (run_alu _ _ r warm .sdiv divZeroNode) (by rfl)).trans (by rfl)
  refine ⟨hnone, ?_, fun h => ?_⟩
  · rw [impl_of_not_fuse rfl, doRvop_visible]
    rfl
  · unfold T2cAgrees at h
    rw [hnone] at h
    cases h

end Rv32emu
