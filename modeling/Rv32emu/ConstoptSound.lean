import Rv32emu.Block
import Rv32emu.Constopt

/-!
# Soundness of the constant tracking

The interpreter table `rvop` and the optimiser table `constoptRule` are compared row by row once,
in `ruleFor`: `RuleFor op c f` says that the rule `f` describes the body `c`. Three rows have no
matching rule: `nop` resets `x0` and `sc.w` writes 0 to `rd` while their rules do nothing, and the
rule of `c.jalr` marks `ra` as constant but stores the value for `rd`.

* `Agrees` : every tracked constant is the value of its register;
* `exec_agrees` : a handler with a matching rule keeps the agreement;
* `agrees_step_iff`, `tracksConstants_iff` : over all rows, and over every prefix of a block, the
  tracking is right exactly where `StepOk` holds.
-/

namespace Rv32emu

def Flow.cpu : Flow → Cpu
  | .next s | .endOp _ s | .lookup _ s | .chain _ _ s | .ret _ s | .trap _ s => s

/-- Every register marked constant holds its recorded value. -/
def Agrees (info : ConstoptInfo) (x : Reg → Word) : Prop :=
  ∀ r, info.isConstant r = true → x r = info.constVal r

/-! ## Matching rules -/

/-- `new` loads its immediate, in as many bytes as `op`, and neither ends a block. -/
structure LoadsImm (op new : Opcode) : Prop where
  body : rvop new = .set Insn.rd fun ir _ _ => ir.imm
  len : new.len = op.len
  noBranch : op.canBranch = false
  noBranch_new : new.canBranch = false
  not_fuse : new.isFuse = false

/-- The body leaves the integer registers alone. -/
def Code.KeepsX (c : Code) : Prop :=
  ∀ env ir lk cycle pc s, (c.exec env ir lk cycle pc s).cpu.X = s.X

/-- The rule `f` describes the body `c` of opcode `op`. -/
inductive RuleFor (op : Opcode) : Code → Fold → Prop
  | keep {c : Code} (h : c.KeepsX) : RuleFor op c .keep
  | known {val} (h : ∀ ir x pc, val ir x pc = ir.imm) : RuleFor op (.set Insn.rd val) .known
  | auipc {val} (hnew : LoadsImm op .lui) (h : ∀ ir x pc, val ir x pc = ir.imm + pc) :
      RuleFor op (.set Insn.rd val) .auipc
  | fold1 {val new src f} (hnew : LoadsImm op new)
      (h : ∀ ir x pc, val ir x pc = f ir (x (src ir))) :
      RuleFor op (.set Insn.rd val) (.fold1 new src f)
  | fold2 {val new f} (hnew : LoadsImm op new)
      (h : ∀ ir x pc, val ir x pc = f (x ir.rs1) (x ir.rs2)) :
      RuleFor op (.set Insn.rd val) (.fold2 new f)
  | inPlace {val reg f} (hnew : LoadsImm op .clui)
      (h : ∀ ir x pc, val ir x pc = f ir (x (reg ir))) : RuleFor op (.set reg val) (.inPlace reg f)
  | bitManip {val} (hop : op.isBitManip = true) : RuleFor op (.set Insn.rd val) .forgetNz
  | load {compress mask addr read} : RuleFor op (.load compress mask addr read) .forget
  | csr {f} (h : ∀ env ir x cycle s, (f env ir x cycle s).2.X = s.X) : RuleFor op (.csr f) .forget
  | lrw : RuleFor op .lrw .forgetNz
  | amo {f} : RuleFor op (.amo f) .forgetNz
  | fpuX {f} : RuleFor op (.fpuX f) .forgetNz
  | jal : RuleFor op .jal .link
  | jalr : RuleFor op .jalr .link
  | cjal : RuleFor op .cjal .cjal
  | branch {untaken} (hop : op.isCondBranch = true) (hbr : op.canBranch = true) (hlen : op.len = 4) :
      RuleFor op (.branch untaken) (.branch untaken)
  | cbranch {untaken} (hbr : op.canBranch = true) (hlen : op.len = 2) :
      RuleFor op (.cbranch untaken) (.cbranch untaken)

/-! ## Frames -/

theorem csrUpdate_X (env : Env) (f : Word → Word) (csr : Word) (cycle : BitVec 64) (s : Cpu) :
    (csrUpdate env f csr cycle s).2.X = s.X := by
  have hsync : (csrSyncCycle s csr cycle).X = s.X := by
    unfold csrSyncCycle
    split <;> rfl
  unfold csrUpdate
  simp only
  split
  · exact hsync
  · rename_i c _
    rw [← hsync]
    cases c <;> rfl

theorem chainOr_cpu_X (link : Option Ref) (pc : Word) (s : Cpu) : (chainOr link pc s).cpu.X = s.X := by
  cases link <;> rfl

namespace Code

theorem KeepsX.skip : Code.skip.KeepsX := fun _ _ _ _ _ _ => rfl
theorem KeepsX.cj : Code.cj.KeepsX := fun _ _ _ _ _ _ => chainOr_cpu_X _ _ _
theorem KeepsX.cjr : Code.cjr.KeepsX := fun _ _ _ _ _ _ => rfl
theorem KeepsX.leave : Code.leave.KeepsX := fun _ _ _ _ _ _ => rfl
theorem KeepsX.fencei : Code.fencei.KeepsX := fun _ _ _ _ _ _ => rfl
theorem KeepsX.ecall : Code.ecall.KeepsX := fun _ _ _ _ _ _ => rfl
theorem KeepsX.ebreak (compress : Bool) : (Code.ebreak compress).KeepsX := fun _ _ _ _ _ _ => rfl
theorem KeepsX.mret : Code.mret.KeepsX := fun _ _ _ _ _ _ => rfl
theorem KeepsX.fail : Code.fail.KeepsX := fun _ _ _ _ _ _ => rfl

theorem KeepsX.fpu (f : SoftFloat → Insn → (Reg → Word) → Fpu → Fpu) : (Code.fpu f).KeepsX :=
  fun _ _ _ _ _ _ => rfl

theorem KeepsX.store {compress : Bool} {mask : Word} {addr : Insn → (Reg → Word) → Word}
    {write : Cpu → Word → Word → Cpu} (h : ∀ s a v, (write s a v).X = s.X) :
    (Code.store compress mask addr write).KeepsX := by
  intro env ir lk cycle pc s
  simp only [Code.exec]
  split
  · rfl
  · exact h _ _ _

theorem KeepsX.branch (untaken : Word → Word → Bool) : (Code.branch untaken).KeepsX := by
  intro env ir lk cycle pc s
  simp only [Code.exec]
  split_ifs <;> rfl

theorem KeepsX.cbranch (untaken : Word → Bool) : (Code.cbranch untaken).KeepsX := by
  intro env ir lk cycle pc s
  simp only [Code.exec]
  split_ifs
  · exact chainOr_cpu_X _ _ _
  · rfl
  · exact chainOr_cpu_X _ _ _

theorem KeepsX.flw (addr : Insn → (Reg → Word) → Word) : (Code.flw addr).KeepsX := by
  intro env ir lk cycle pc s
  simp only [Code.exec]
  split <;> rfl

theorem KeepsX.fsw (addr : Insn → (Reg → Word) → Word) : (Code.fsw addr).KeepsX := by
  intro env ir lk cycle pc s
  simp only [Code.exec]
  split <;> rfl

end Code

/-! ## The two tables agree -/

theorem LoadsImm.mk_lui {op : Opcode} (hlen : op.len = 4) (hbr : op.canBranch = false) :
    LoadsImm op .lui := ⟨rfl, hlen.symm, hbr, rfl, rfl⟩

theorem LoadsImm.mk_clui {op : Opcode} (hlen : op.len = 2) (hbr : op.canBranch = false) :
    LoadsImm op .clui := ⟨rfl, hlen.symm, hbr, rfl, rfl⟩

/-- The signed shift of the folded `mulhu` and the unsigned one of the handler keep the same 32
bits. -/
theorem sshiftRight_setWidth_eq (p : BitVec 64) :
    (p.sshiftRight 32).setWidth 32 = (p >>> 32).setWidth 32 := by
  ext i hi
  simp only [BitVec.getElem_setWidth, BitVec.getLsbD_sshiftRight, BitVec.getLsbD_ushiftRight,
    show ¬ 64 ≤ i by omega, show 32 + i < 64 by omega, decide_false, Bool.not_false, Bool.true_and,
    if_true]

/-- **Row by row, the rules describe the handlers.** -/
theorem ruleFor (op : Opcode) (hnop : op ≠ .nop) (hscw : op ≠ .scw) (hcjalr : op ≠ .cjalr) :
    RuleFor op (rvop op) (constoptRule op) := by
  cases op
  case nop => exact absurd rfl hnop
  case scw => exact absurd rfl hscw
  case cjalr => exact absurd rfl hcjalr
  case mulhu =>
    exact .fold2 (.mk_lui rfl rfl) fun ir x _ => (sshiftRight_setWidth_eq _).symm
  case addi => exact .fold1 (.mk_lui rfl rfl) fun ir x _ => BitVec.add_comm _ _
  case xori => exact .fold1 (.mk_lui rfl rfl) fun ir x _ => BitVec.xor_comm _ _
  case ori => exact .fold1 (.mk_lui rfl rfl) fun ir x _ => BitVec.or_comm _ _
  case andi => exact .fold1 (.mk_lui rfl rfl) fun ir x _ => BitVec.and_comm _ _
  case lui | cli | clui => exact .known fun _ _ _ => rfl
  case auipc => exact .auipc (.mk_lui rfl rfl) fun _ _ _ => rfl
  case slti | sltiu | slli | srli | srai => exact .fold1 (.mk_lui rfl rfl) fun _ _ _ => rfl
  case caddi4spn | cmv => exact .fold1 (.mk_clui rfl rfl) fun _ _ _ => rfl
  case add | sub | sll | slt | sltu | xor | srl | sra | or | and | mul | mulh | mulhsu | div | divu
      | rem | remu =>
    exact .fold2 (.mk_lui rfl rfl) fun _ _ _ => rfl
  case csub | cxor | cor | cand | cadd => exact .fold2 (.mk_clui rfl rfl) fun _ _ _ => rfl
  case caddi | caddi16sp | csrli | csrai | candi | cslli =>
    exact .inPlace (.mk_clui rfl rfl) fun _ _ _ => rfl
  case sh1add | sh2add | sh3add | andn | orn | xnor | clz | ctz | cpop | max | maxu | min | minu
      | sextb | sexth | zexth | rol | ror | rori | orcb | rev8 | clmul | clmulh | clmulr | bclr
      | bclri | bext | bexti | binv | binvi | bset | bseti =>
    exact .bitManip rfl
  case lb | lh | lw | lbu | lhu | clw | clwsp => exact .load
  case csrrw | csrrs | csrrc | csrrwi | csrrsi | csrrci =>
    exact .csr fun _ _ _ _ _ => csrUpdate_X _ _ _ _ _
  case lrw => exact .lrw
  case amoswapw | amoaddw | amoxorw | amoandw | amoorw | amominw | amomaxw | amominuw | amomaxuw =>
    exact .amo
  case fcvtws | fcvtwus | fmvxw | feqs | flts | fles | fclasss => exact .fpuX
  case jal => exact .jal
  case jalr => exact .jalr
  case cjal => exact .cjal
  case beq | bne | blt | bge | bltu | bgeu => exact .branch rfl rfl rfl
  case cbeqz | cbnez => exact .cbranch rfl rfl
  case sb | sh | sw | csw | cswsp => exact .keep (.store fun _ _ _ => rfl)
  case flw | cflw | cflwsp => exact .keep (.flw _)
  case fsw | cfsw | cfswsp => exact .keep (.fsw _)
  case fmadds | fmsubs | fnmsubs | fnmadds | fadds | fsubs | fmuls | fdivs | fsqrts | fsgnjs
      | fsgnjns | fsgnjxs | fmins | fmaxs | fcvtsw | fcvtswu | fmvwx =>
    exact .keep (.fpu _)
  case fence | wfi | sfencevma => exact .keep .leave
  case fencei => exact .keep .fencei
  case ecall => exact .keep .ecall
  case ebreak | cebreak => exact .keep (.ebreak _)
  case mret => exact .keep .mret
  case cnop => exact .keep .skip
  case cj => exact .keep .cj
  case cjr => exact .keep .cjr
  all_goals exact .keep .fail

/-! ## One handler -/

namespace Agrees

variable {info : ConstoptInfo} {x : Reg → Word}

theorem know (h : Agrees info x) (r : Reg) (v : Word) :
    Agrees (info.know r v) (Function.update x r v) := by
  intro q hq
  by_cases hr : q = r
  · subst hr
    simp [ConstoptInfo.know]
  · simp only [ConstoptInfo.know, Function.update_of_ne hr] at hq ⊢
    exact h q hq

theorem setVal (h : Agrees info x) (r : Reg) (v : Word) :
    Agrees (info.setVal r v) (Function.update x r v) := by
  intro q hq
  by_cases hr : q = r
  · subst hr
    simp [ConstoptInfo.setVal]
  · simp only [ConstoptInfo.setVal, Function.update_of_ne hr] at hq ⊢
    exact h q hq

theorem forget (h : Agrees info x) (r : Reg) (v : Word) :
    Agrees (info.forget r) (Function.update x r v) := by
  intro q hq
  by_cases hr : q = r
  · subst hr
    simp [ConstoptInfo.forget] at hq
  · simp only [ConstoptInfo.forget, Function.update_of_ne hr] at hq ⊢
    exact h q hq

theorem forget_same (h : Agrees info x) (r : Reg) : Agrees (info.forget r) x := by
  have := h.forget r (x r)
  rwa [Function.update_eq_self] at this

theorem update_of_not (h : Agrees info x) {r : Reg} (hr : info.isConstant r = false) (v : Word) :
    Agrees info (Function.update x r v) := by
  intro q hq
  rw [Function.update_of_ne]
  · exact h q hq
  · rintro rfl
    simp [hr] at hq

/-- `if (rd) X[rd] = v` against a rule that forgets `rd`, conditionally or not. -/
theorem forget_setXNz {s : Cpu} (h : Agrees info s.X) (r : Reg) (v : Word) :
    Agrees (info.forget r) (s.setXNz r v).X := by
  unfold Cpu.setXNz
  split
  · exact h.forget r v
  · exact h.forget_same r

theorem forgetNz_same (h : Agrees info x) (r : Reg) :
    Agrees (if r ≠ 0 then info.forget r else info) x := by
  split
  · exact h.forget_same r
  · exact h

theorem forgetNz_setXNz {s : Cpu} (h : Agrees info s.X) (r : Reg) (v : Word) :
    Agrees (if r ≠ 0 then info.forget r else info) (s.setXNz r v).X := by
  unfold Cpu.setXNz
  split
  · exact h.forget r v
  · exact h

/-- The return address of `jal` and `jalr`. -/
theorem link {s : Cpu} (h : Agrees info s.X) (ir : Insn) :
    Agrees (Fold.link.run ir info).2 (s.setXNz ir.rd (ir.pc + 4)).X := by
  simp only [Fold.run, Cpu.setXNz]
  split
  · exact h.know ir.rd _
  · exact h

end Agrees

/-- **A handler with a matching rule keeps the agreement.** The rule may have looked at `pc`, so the
node has to run at the address it was decoded from. -/
theorem exec_agrees {env : Env} {ir : Insn} {c : Code} {f : Fold} (hrule : RuleFor ir.opcode c f)
    (hwf : ir.WellFormed) {info : ConstoptInfo} {s : Cpu} (hag : Agrees info s.X) (lk : Links)
    (cycle : BitVec 64) : Agrees (f.run ir info).2 (c.exec env ir lk cycle ir.pc s).cpu.X := by
  cases hrule with
  | keep h =>
    rw [h]
    exact hag
  | known h =>
    simp only [Code.exec, Fold.run, Flow.cpu, h]
    exact hag.know ir.rd ir.imm
  | auipc _ h =>
    simp only [Code.exec, Fold.run, Flow.cpu, h]
    exact hag.know ir.rd _
  | @fold1 val new src g _ h =>
    simp only [Code.exec, Fold.run, Flow.cpu, h]
    split
    · rename_i hc
      rw [hag _ hc]
      exact hag.know ir.rd _
    · exact hag.forget ir.rd _
  | @fold2 val new g _ h =>
    simp only [Code.exec, Fold.run, Flow.cpu, h]
    split
    · rename_i hc
      rw [hag _ hc.1, hag _ hc.2]
      exact hag.know ir.rd _
    · exact hag.forget ir.rd _
  | @inPlace val reg g _ h =>
    simp only [Code.exec, Fold.run, Flow.cpu, h]
    split
    · rename_i hc
      rw [hag _ hc]
      exact hag.setVal (reg ir) _
    · rename_i hc
      exact hag.update_of_not (by simpa using hc) _
  | bitManip hop =>
    simp only [Code.exec, Fold.run, Flow.cpu, ne_eq, hwf.bitManip_rd hop, not_false_eq_true, if_true]
    exact hag.forget ir.rd _
  | load =>
    simp only [Code.exec, Fold.run]
    split
    · exact hag.forget_same ir.rd
    · exact hag.forget ir.rd _
  | @csr g h =>
    simp only [Code.exec, Fold.run, Flow.cpu]
    exact Agrees.forget_setXNz (by rw [h]; exact hag) _ _
  | lrw =>
    simp only [Code.exec, Fold.run]
    by_cases hm : misaligned env 3 (s.X ir.rs1) = true
    · rw [if_pos hm]
      exact hag.forgetNz_same ir.rd
    · rw [if_neg hm]
      exact hag.forgetNz_setXNz _ _
  | amo =>
    simp only [Code.exec, Fold.run]
    by_cases hm : misaligned env 3 (s.X ir.rs1) = true
    · rw [if_pos hm]
      exact hag.forgetNz_same ir.rd
    · rw [if_neg hm]
      exact hag.forgetNz_setXNz _ _
  | fpuX =>
    simp only [Code.exec, Fold.run, Flow.cpu]
    refine Agrees.forgetNz_setXNz ?_ _ _
    exact hag
  | jal =>
    simp only [Code.exec]
    split
    · exact hag.link ir
    · rw [chainOr_cpu_X]
      exact hag.link ir
  | jalr =>
    simp only [Code.exec]
    split <;> exact hag.link ir
  | cjal =>
    simp only [Code.exec, Fold.run, chainOr_cpu_X]
    exact hag.know regRa _
  | branch =>
    rw [Code.KeepsX.branch]
    simp only [Fold.run]
    split <;> exact hag
  | cbranch =>
    rw [Code.KeepsX.cbranch]
    simp only [Fold.run]
    split <;> exact hag

/-! ## The rows without a matching rule -/

/-- The condition, on the tracking before a node, under which its rule is right. For `nop` and
`sc.w` a tracked destination already has to be 0; for `c.jalr` through another register than `ra`
both the stale value of `ra` and a tracked source have to be the return address by accident. -/
def StepOk (ir : Insn) (info : ConstoptInfo) : Prop :=
  match ir.opcode with
  | .nop => info.isConstant regZero = true → info.constVal regZero = 0
  | .scw => info.isConstant ir.rd = true → info.constVal ir.rd = 0
  | .cjalr => ir.rs1 = regRa ∨ (info.constVal regRa = ir.pc + 2 ∧
      (info.isConstant ir.rs1 = true → info.constVal ir.rs1 = ir.pc + 2))
  | _ => True

namespace Agrees

variable {info : ConstoptInfo} {x : Reg → Word}

/-- Overwriting `r` behind the tracker's back is harmless iff `r` is untracked or has that value. -/
theorem update_iff (h : Agrees info x) (r : Reg) (v : Word) :
    Agrees info (Function.update x r v) ↔ (info.isConstant r = true → info.constVal r = v) := by
  constructor
  · intro h' hr
    rw [← h' r hr, Function.update_self]
  · intro hv q hq
    by_cases hqr : q = r
    · subst hqr
      rw [Function.update_self, hv hq]
    · rw [Function.update_of_ne hqr]
      exact h q hq

/-- Marking `ra` while storing the value for `q`, against a write of that value to `ra`. -/
theorem mark_store_iff (h : Agrees info x) (ra q : Reg) (v : Word) :
    Agrees ⟨Function.update info.isConstant ra true, Function.update info.constVal q v⟩
        (Function.update x ra v) ↔
      (q = ra ∨ (info.constVal ra = v ∧ (info.isConstant q = true → info.constVal q = v))) := by
  by_cases hra : q = ra
  · refine iff_of_true ?_ (.inl hra)
    subst hra
    exact h.know q v
  · have hra' : ra ≠ q := fun e => hra e.symm
    simp only [hra, false_or]
    constructor
    · intro h'
      constructor
      · have := h' ra (Function.update_self ..)
        simp only [Function.update_self, Function.update_of_ne hra'] at this
        exact this.symm
      · intro hc
        have := h' q (by simpa only [Function.update_of_ne hra] using hc)
        simp only [Function.update_of_ne hra, Function.update_self] at this
        rw [← h _ hc, this]
    · rintro ⟨hval, hsrc⟩ p hp
      by_cases hpra : p = ra
      · subst hpra
        simp only [Function.update_self, Function.update_of_ne hra', hval]
      · simp only [Function.update_of_ne hpra] at hp ⊢
        by_cases hpq : p = q
        · subst hpq
          rw [Function.update_self, h _ hp, hsrc hp]
        · rw [Function.update_of_ne hpq]
          exact h p hp

end Agrees

def Flow.isTrap : Flow → Bool
  | .trap _ _ => true
  | _ => false

/-- **One step.** A node that does not trap leaves the tracking right iff `StepOk` holds before it. -/
theorem agrees_step_iff {env : Env} {ir : Insn} (hwf : ir.WellFormed) {info : ConstoptInfo} {s : Cpu}
    (hag : Agrees info s.X) (lk : Links) (cycle : BitVec 64)
    (htrap : ((rvop ir.opcode).exec env ir lk cycle ir.pc s).isTrap = false) :
    Agrees (constopt ir info).2 ((rvop ir.opcode).exec env ir lk cycle ir.pc s).cpu.X ↔
      StepOk ir info := by
  by_cases hnop : ir.opcode = .nop
  · simp only [constopt, StepOk, hnop]
    exact hag.update_iff regZero 0
  by_cases hscw : ir.opcode = .scw
  · simp only [hscw, rvop, Code.exec] at htrap
    simp only [constopt, StepOk, hscw, rvop, Code.exec]
    split at htrap
    · simp [misalignTrap, Flow.isTrap] at htrap
    · rename_i hm
      rw [if_neg hm]
      exact hag.update_iff ir.rd 0
  by_cases hcjalr : ir.opcode = .cjalr
  · simp only [constopt, StepOk, hcjalr, constoptRule, Fold.run, ConstoptInfo.setVal,
      hwf.cjalr_rd hcjalr]
    exact hag.mark_store_iff regRa ir.rs1 (ir.pc + 2)
  · refine iff_of_true (exec_agrees (ruleFor _ hnop hscw hcjalr) hwf hag lk cycle) ?_
    unfold StepOk
    split <;> first | contradiction | trivial

/-! ## Every prefix of a block -/

/-- After the rules and the handlers of any prefix that runs without trapping, the tracking is right. -/
def TracksConstants (env : Env) (irs : List Insn) (cycle : BitVec 64) (pc : Word) (s : Cpu) : Prop :=
  ∀ pre suf, irs = pre ++ suf → ∀ s', runNodes env pre cycle pc s = some s' →
    Agrees (constoptRun pre .init).2 s'.X

/-- How a body ends a handler that has neither links nor a node before it to return to. -/
theorem runNodes_next {env : Env} (ir : Insn) {cycle : BitVec 64} {pc : Word} {s s1 : Cpu}
    (h : (rvop ir.opcode).exec env ir {} (cycle + 1) pc s = .next s1) (irs : List Insn) :
    runNodes env (ir :: irs) cycle pc s = runNodes env irs (cycle + 1) (pc + ir.opcode.len) s1 := by
  simp only [runNodes, doRvop, h]
  rfl

theorem runNodes_trap {env : Env} (ir : Insn) {cycle : BitVec 64} {pc : Word} {s : Cpu}
    (h : ((rvop ir.opcode).exec env ir {} (cycle + 1) pc s).isTrap = true) (irs : List Insn) :
    runNodes env (ir :: irs) cycle pc s = none := by
  simp only [runNodes, doRvop]
  cases hf : (rvop ir.opcode).exec env ir {} (cycle + 1) pc s <;> rw [hf] at h <;> cases h

/-- A body that leaves the block runs only as the last node. -/
theorem runNodes_leave {env : Env} (ir : Insn) {cycle : BitVec 64} {pc : Word} {s : Cpu}
    (htrap : ((rvop ir.opcode).exec env ir {} (cycle + 1) pc s).isTrap = false)
    (hnext : ∀ s1, (rvop ir.opcode).exec env ir {} (cycle + 1) pc s ≠ .next s1) :
    ∃ s', s'.X = ((rvop ir.opcode).exec env ir {} (cycle + 1) pc s).cpu.X ∧
      ∀ irs, runNodes env (ir :: irs) cycle pc s = if irs = [] then some s' else none := by
  simp only [runNodes, doRvop]
  cases hf : (rvop ir.opcode).exec env ir {} (cycle + 1) pc s with
  | next s1 => exact absurd hf (hnext s1)
  | trap t s1 =>
    rw [hf] at htrap
    cases htrap
  | endOp pc1 s1 =>
    refine ⟨s1.save (cycle + 1) pc1, rfl, fun irs => ?_⟩
    simp only [endOp]
    split <;> simp_all
  | lookup pc1 s1 => exact ⟨s1, rfl, fun irs => rfl⟩
  | chain r pc1 s1 => exact ⟨s1, rfl, fun irs => rfl⟩
  | ret ok s1 => exact ⟨s1, rfl, fun irs => rfl⟩

/-- The handlers and the rules of a block advance `pc` alike; `ebreak`, whose length is left 0 by
the decoder's table, traps. -/
theorem pc_next {env : Env} {insn : Word} {ir : Insn} (hdec : rvDecode true insn = .ok ir)
    {cycle : BitVec 64} {pc : Word} {s s1 : Cpu} {lk : Links}
    (h : (rvop ir.opcode).exec env { ir with pc } lk cycle pc s = .next s1) :
    pc + ir.opcode.len = pc + insnLen insn := by
  rw [rvDecode_len hdec]
  intro hop
  rw [hop] at h
  exact Flow.noConfusion h

/-- Along a block, from any tracking that is right, the tracking stays right after every prefix that
runs iff `StepOk` holds before every node that runs. -/
theorem agrees_runNodes_iff {env : Env} {irs : List Insn} {pc : Word} (hblk : IrBlock true pc irs) :
    ∀ {info : ConstoptInfo} {s : Cpu} (cycle : BitVec 64), Agrees info s.X →
      ((∀ pre suf, irs = pre ++ suf → ∀ s', runNodes env pre cycle pc s = some s' →
          Agrees (constoptRun pre info).2 s'.X) ↔
        ∀ pre ir suf, irs = pre ++ ir :: suf → ∀ s', runNodes env (pre ++ [ir]) cycle pc s = some s' →
          StepOk ir (constoptRun pre info).2) := by
  induction hblk with
  | nil pc =>
    intro info s cycle hag
    refine iff_of_true ?_ ?_
    · intro pre suf hirs s' hrun
      obtain ⟨rfl, rfl⟩ := List.append_eq_nil_iff.mp hirs.symm
      cases hrun
      exact hag
    · intro pre ir suf hirs
      simp at hirs
  | @cons pc insn ir irs hdec hend hrest ih =>
    intro info s cycle hag
    have hwf := (rvDecode_wellFormed hdec).setPc pc
    have hnil : ∀ s', runNodes env [] cycle pc s = some s' → Agrees (constoptRun [] info).2 s'.X := by
      rintro _ ⟨⟩
      exact hag
    rw [forall_prefix_cons, forall_split_cons, and_iff_right hnil]
    simp only [List.nil_append, List.cons_append]
    by_cases htrap : ((rvop ir.opcode).exec env { ir with pc } {} (cycle + 1) pc s).isTrap = true
    · simp [runNodes_trap { ir with pc } htrap]
    have hstep := agrees_step_iff hwf hag {} (cycle + 1) (by simpa using htrap)
    by_cases hnext : ∃ s1, (rvop ir.opcode).exec env { ir with pc } {} (cycle + 1) pc s = .next s1
    · obtain ⟨s1, hs1⟩ := hnext
      have hpc : pc + ({ ir with pc } : Insn).opcode.len = pc + insnLen insn := pc_next hdec hs1
      simp only [runNodes_next { ir with pc } hs1, hpc]
      rw [hs1] at hstep
      constructor
      · intro h
        have hone := hstep.mp (h [] irs rfl s1 rfl)
        exact ⟨fun _ _ => hone, (ih (cycle + 1) (hstep.mpr hone)).mp h⟩
      · rintro ⟨hone, h⟩
        exact (ih (cycle + 1) (hstep.mpr (hone s1 rfl))).mpr h
    · obtain ⟨s1, hX, hrun⟩ := runNodes_leave { ir with pc } (by simpa using htrap)
        fun s1 hs1 => hnext ⟨s1, hs1⟩
      simp only [hrun]
      rw [← hX] at hstep
      constructor
      · intro h
        refine ⟨fun _ _ => hstep.mp (h [] irs rfl s1 rfl), fun pre b suf _ s' hs' => ?_⟩
        simp at hs'
      · rintro ⟨hone, -⟩ pre suf hirs s' hs'
        split_ifs at hs' with hpre
        subst hpre
        cases hs'
        exact hstep.mpr (hone s1 rfl)

/-- **The tracking of `optimize_constant` is right exactly where `StepOk` holds.** -/
theorem tracksConstants_iff (env : Env) {irs : List Insn} {pc : Word} (hblk : IrBlock true pc irs)
    (cycle : BitVec 64) (s : Cpu) (hx0 : s.X 0 = 0) :
    TracksConstants env irs cycle pc s ↔
      ∀ pre ir suf, irs = pre ++ ir :: suf → ∀ s', runNodes env (pre ++ [ir]) cycle pc s = some s' →
        StepOk ir (constoptRun pre .init).2 := by
  refine agrees_runNodes_iff hblk cycle fun r hr => ?_
  have : r = regZero := by simpa [ConstoptInfo.init] using hr
  subst this
  exact hx0

/-- `addi a0, x0, imm` and `sc.w a0, a1, (a2)` as `block_translate` decodes them at 0 and 4. -/
def addiScw (imm : Word) : List Insn :=
  [{ opcode := .addi, rd := 10, imm }, { opcode := .scw, rd := 10, rs1 := 12, rs2 := 11, pc := 4 }]

theorem addiScw_irBlock {insn imm : Word}
    (h : rvDecode true insn = .ok { opcode := .addi, rd := 10, imm }) (hlen : insnLen insn = 4) :
    IrBlock true 0 (addiScw imm) := by
  refine .cons h (fun h => by cases h) ?_
  rw [hlen]
  exact .cons (show rvDecode true 0x18b6252f = .ok _ from by rfl) (fun h => by cases h) (.nil _)

/-- With `imm = 5` the block still tracks `a0 = 5` after `sc.w` has written 0 to it. -/
theorem not_tracksConstants_addiScw :
    IrBlock true 0 (addiScw 5) ∧ (Cpu.zero fun _ => 0).X 0 = 0 ∧
      ¬ TracksConstants (Env.bare false) (addiScw 5) 0 0 (Cpu.zero fun _ => 0) := by
  refine ⟨addiScw_irBlock (show rvDecode true 0x00500513 = .ok _ from rfl) rfl, rfl, fun h => ?_⟩
  have h10 := h (addiScw 5) [] rfl _ rfl 10 rfl
  exact absurd h10 (by decide)

/-- With `imm = 0` the tracked value is the one `sc.w` writes. -/
theorem tracksConstants_addiScw_zero :
    TracksConstants (Env.bare false) (addiScw 0) 0 0 (Cpu.zero fun _ => 0) := by
  refine (tracksConstants_iff (Env.bare false) (addiScw_irBlock
    (show rvDecode true 0x00000513 = .ok _ from rfl) rfl) 0 (Cpu.zero fun _ => 0) rfl).mpr ?_
  rw [addiScw, forall_split_cons, forall_split_cons]
  refine ⟨fun _ _ => trivial, fun _ _ _ => rfl, fun pre ir suf h => ?_⟩
  simp at h

end Rv32emu
