import Rv32emu.Engine

/-!
# What one handler can do

The block linker only needs to know how a handler leaves its node: where it goes on, through which
link, and whether it has touched `last_pc`. `NodeStep` lists the possibilities, and `impl_nodeStep`
proves once, for every opcode and every fused opcode, that there are no others.

* `TailKind` : which links a node follows, with `Insn.takenTarget` and `Insn.untakenTarget` the
  addresses it follows them to;
* `Follows` : a node that has returned to `rv_step` has saved the address its link would be for.
-/

namespace Rv32emu

/-! ## Targets -/

/-- The links a node follows: `branch_taken` always, either one, `branch_taken` as its fallthrough, or
none. -/
inductive TailKind
  | direct | cond | fall | closed
  deriving DecidableEq, Repr

namespace Opcode

def tailKind : Opcode → TailKind
  | .jal | .cj | .cjal => .direct
  | .cbeqz | .cbnez | .fuse12 => .cond
  | op => if op.canBranch || op.isFuse then .closed else .fall

/-- The opcodes that `block_translate` and `match_pattern` leave at the end of a block only. -/
def endsBlock (op : Opcode) : Bool := op.canBranch || op == .fuse6 || op == .fuse12

end Opcode

namespace Insn

def nodeLen (ir : Insn) : Word :=
  match ir.opcode with
  | .fuse1 | .fuse3 | .fuse4 | .fuse5 | .fuse7 => ir.imm2 * 4
  | .fuse2 | .fuse8 | .fuse9 | .fuse10 | .fuse11 => 8
  | op => op.len

/-- Where `branch_taken` is followed to from a node run at `pc`. -/
def takenTarget (ir : Insn) (pc : Word) : Word :=
  match ir.opcode.tailKind with
  | .direct => pc + ir.imm
  | .cond => if ir.opcode = .fuse12 then pc + (4 + ir.imm2) else pc + ir.imm
  | .fall | .closed => pc + ir.nodeLen

/-- Where `branch_untaken` is followed to. -/
def untakenTarget (ir : Insn) (pc : Word) : Word := if ir.opcode = .fuse12 then pc + 8 else pc + 2

end Insn

/-- The address saved by a node that has run at `pc`, as far as a link depends on it. -/
def Follows (ir : Insn) (pc : Word) (s : Cpu) : Prop :=
  match ir.opcode.tailKind with
  | .direct | .fall => s.PC = ir.takenTarget pc
  | .cond => s.PC = if s.isBranchTaken then ir.takenTarget pc else ir.untakenTarget pc
  | .closed => True

theorem Follows.of_closed {ir : Insn} (h : ir.opcode.tailKind = .closed) (pc : Word) (s : Cpu) :
    Follows ir pc s := by
  unfold Follows
  rw [h]
  trivial

/-! ## Handlers -/

inductive NodeStep (ir : Insn) (lk : Links) (noNext : Bool) (pc : Word) (s : Cpu) : Ctl → Prop
  | next {cycle : BitVec 64} {s' : Cpu} (hnext : noNext = false) (hwfi : ir.opcode ≠ .wfi)
      (hlast : s'.lastPc = s.lastPc) : NodeStep ir lk noNext pc s (.next cycle (pc + ir.nodeLen) s')
  | taken {cycle : BitVec 64} {r : Ref} {s' : Cpu} (hlk : lk.taken = some r)
      (hkind : ir.opcode.tailKind ≠ .closed) (hlast : s'.lastPc = ir.takenTarget pc) :
      NodeStep ir lk noNext pc s (.enter r cycle (ir.takenTarget pc) s')
  | untaken {cycle : BitVec 64} {r : Ref} {s' : Cpu} (hlk : lk.untaken = some r)
      (hkind : ir.opcode.tailKind = .cond) (hlast : s'.lastPc = ir.untakenTarget pc) :
      NodeStep ir lk noNext pc s (.enter r cycle (ir.untakenTarget pc) s')
  | lookup {cycle : BitVec 64} {pc' : Word} {s' : Cpu} (hop : ir.opcode.isIndirectBranch = true)
      (hlast : s'.lastPc = s.lastPc) : NodeStep ir lk noNext pc s (.lookup cycle pc' s')
  | ret {s' : Cpu} (hend : noNext = true ∨ ir.opcode.endsBlock = true ∨ ir.opcode = .wfi)
      (hfollow : Follows ir pc s') (hlast : s'.lastPc = s.lastPc) :
      NodeStep ir lk noNext pc s (.ret true s')
  | fail {s' : Cpu} : NodeStep ir lk noNext pc s (.ret false s')
  | trap {t : Trap} {s' : Cpu}
      (hafter : t.after = .retFalse ∨ (ir.opcode.endsBlock = true ∧ ir.opcode.tailKind = .closed))
      (hlast : s'.lastPc = s.lastPc) : NodeStep ir lk noNext pc s (.trap t s')

/-! ## Handler bodies that fall through -/

theorem csrUpdate_lastPc (env : Env) (f : Word → Word) (csr : Word) (cycle : BitVec 64) (s : Cpu) :
    (csrUpdate env f csr cycle s).2.lastPc = s.lastPc := by
  have hsync : (csrSyncCycle s csr cycle).lastPc = s.lastPc := by
    unfold csrSyncCycle
    split <;> rfl
  unfold csrUpdate
  simp only
  split
  · exact hsync
  · rename_i c _
    rw [← hsync]
    cases c <;> rfl

/-- The body falls through or raises a misaligned access. -/
def Code.Straight (c : Code) : Prop :=
  ∀ env ir lk cycle pc s,
    (∃ s', c.exec env ir lk cycle pc s = .next s' ∧ s'.lastPc = s.lastPc) ∨
    ∃ t s', c.exec env ir lk cycle pc s = .trap t s' ∧ t.after = .retFalse ∧ s'.lastPc = s.lastPc

theorem Cpu.setXNz_lastPc (s : Cpu) (r : Reg) (v : Word) : (s.setXNz r v).lastPc = s.lastPc := by
  unfold Cpu.setXNz
  split <;> rfl

namespace Code

theorem Straight.set (dst : Insn → Reg) (val : Insn → (Reg → Word) → Word → Word) :
    (Code.set dst val).Straight := fun _ _ _ _ _ _ => .inl ⟨_, rfl, rfl⟩

theorem Straight.skip : Code.skip.Straight := fun _ _ _ _ _ _ => .inl ⟨_, rfl, rfl⟩

theorem Straight.load (compress : Bool) (mask : Word) (addr : Insn → (Reg → Word) → Word)
    (read : Cpu → Word → Word) : (Code.load compress mask addr read).Straight := by
  intro env ir lk cycle pc s
  simp only [Code.exec]
  split
  · exact .inr ⟨_, _, rfl, rfl, rfl⟩
  · exact .inl ⟨_, rfl, rfl⟩

theorem Straight.store {compress : Bool} {mask : Word} {addr : Insn → (Reg → Word) → Word}
    {write : Cpu → Word → Word → Cpu} (h : ∀ s a v, (write s a v).lastPc = s.lastPc) :
    (Code.store compress mask addr write).Straight := by
  intro env ir lk cycle pc s
  simp only [Code.exec]
  split
  · exact .inr ⟨_, _, rfl, rfl, rfl⟩
  · exact .inl ⟨_, rfl, h ..⟩

theorem Straight.lrw : Code.lrw.Straight := by
  intro env ir lk cycle pc s
  simp only [Code.exec]
  split
  · exact .inr ⟨_, _, rfl, rfl, rfl⟩
  · exact .inl ⟨_, rfl, Cpu.setXNz_lastPc ..⟩

theorem Straight.scw : Code.scw.Straight := by
  intro env ir lk cycle pc s
  simp only [Code.exec]
  split
  · exact .inr ⟨_, _, rfl, rfl, rfl⟩
  · exact .inl ⟨_, rfl, rfl⟩

theorem Straight.amo (f : Word → Word → Word) : (Code.amo f).Straight := by
  intro env ir lk cycle pc s
  simp only [Code.exec]
  split
  · exact .inr ⟨_, _, rfl, rfl, rfl⟩
  · exact .inl ⟨_, rfl, Cpu.setXNz_lastPc s _ _⟩

theorem Straight.flw (addr : Insn → (Reg → Word) → Word) : (Code.flw addr).Straight := by
  intro env ir lk cycle pc s
  simp only [Code.exec]
  split
  · exact .inr ⟨_, _, rfl, rfl, rfl⟩
  · exact .inl ⟨_, rfl, rfl⟩

theorem Straight.fsw (addr : Insn → (Reg → Word) → Word) : (Code.fsw addr).Straight := by
  intro env ir lk cycle pc s
  simp only [Code.exec]
  split
  · exact .inr ⟨_, _, rfl, rfl, rfl⟩
  · exact .inl ⟨_, rfl, rfl⟩

theorem Straight.fpu (f : SoftFloat → Insn → (Reg → Word) → Fpu → Fpu) : (Code.fpu f).Straight :=
  fun _ _ _ _ _ _ => .inl ⟨_, rfl, rfl⟩

theorem Straight.fpuX (f : SoftFloat → Insn → Fpu → Word × Fpu) : (Code.fpuX f).Straight :=
  fun _ _ _ _ _ _ => .inl ⟨_, rfl, Cpu.setXNz_lastPc ..⟩

theorem Straight.csr {f : Env → Insn → (Reg → Word) → BitVec 64 → Cpu → Word × Cpu}
    (h : ∀ env ir x cycle s, (f env ir x cycle s).2.lastPc = s.lastPc) : (Code.csr f).Straight :=
  fun _ _ _ _ _ _ => .inl ⟨_, rfl, (Cpu.setXNz_lastPc ..).trans (h ..)⟩

end Code

/-! ## The rows of the handler table -/

/-- The shape of the body of an opcode, with the columns of the opcode table that go with it. -/
inductive Row (op : Opcode) : Code → Prop
  | straight {c : Code} (h : c.Straight) (hwfi : op ≠ .wfi) (hb : op.canBranch = false)
      (hkind : op.tailKind = .fall) : Row op c
  | csrrw {c : Code} (h : c.Straight) (hwfi : op ≠ .wfi) (hb : op.canBranch = true)
      (hkind : op.tailKind = .closed) : Row op c
  | wfi (hop : op = .wfi) : Row op .leave
  | leave (hb : op.canBranch = true) (hkind : op.tailKind = .closed) : Row op .leave
  | fencei (hb : op.canBranch = true) (hkind : op.tailKind = .closed) : Row op .fencei
  | mret (hb : op.canBranch = true) (hkind : op.tailKind = .closed) : Row op .mret
  | ecall (hb : op.canBranch = true) (hkind : op.tailKind = .closed) : Row op .ecall
  | ebreak {compress : Bool} (hb : op.canBranch = true) (hkind : op.tailKind = .closed) :
      Row op (.ebreak compress)
  | branch {untaken : Word → Word → Bool} (hwfi : op ≠ .wfi) (hb : op.canBranch = true)
      (hkind : op.tailKind = .closed) : Row op (.branch untaken)
  | cbranch {untaken : Word → Bool} (hwfi : op ≠ .wfi) (hb : op.canBranch = true)
      (hkind : op.tailKind = .cond) (hne : op ≠ .fuse12) (hlen : op.len = 2) : Row op (.cbranch untaken)
  | jal (hb : op.canBranch = true) (hkind : op.tailKind = .direct) : Row op .jal
  | cjal (hb : op.canBranch = true) (hkind : op.tailKind = .direct) : Row op .cjal
  | cj (hb : op.canBranch = true) (hkind : op.tailKind = .direct) : Row op .cj
  | jalr (hop : op.isIndirectBranch = true) : Row op .jalr
  | cjr (hop : op.isIndirectBranch = true) : Row op .cjr
  | cjalr (hop : op.isIndirectBranch = true) : Row op .cjalr
  | fail : Row op .fail

theorem row (op : Opcode) : Row op (rvop op) := by
  cases op
  case csrrw => exact .csrrw (.csr fun _ _ _ _ _ => csrUpdate_lastPc ..) (by simp) rfl rfl
  case csrrs | csrrc | csrrwi | csrrsi | csrrci =>
    exact .straight (.csr fun _ _ _ _ _ => csrUpdate_lastPc ..) (by simp) rfl rfl
  case wfi => exact .wfi rfl
  case fence | sfencevma => exact .leave rfl rfl
  case fencei => exact .fencei rfl rfl
  case mret => exact .mret rfl rfl
  case ecall => exact .ecall rfl rfl
  case ebreak | cebreak => exact .ebreak rfl rfl
  case beq | bne | blt | bge | bltu | bgeu => exact .branch (by simp) rfl rfl
  case cbeqz | cbnez => exact .cbranch (by simp) rfl rfl (by simp) rfl
  case jal => exact .jal rfl rfl
  case cjal => exact .cjal rfl rfl
  case cj => exact .cj rfl rfl
  case jalr => exact .jalr rfl
  case cjr => exact .cjr rfl
  case cjalr => exact .cjalr rfl
  case cnop => exact .straight .skip (by simp) rfl rfl
  case lb | lh | lw | lbu | lhu | clw | clwsp => exact .straight (.load _ _ _ _) (by simp) rfl rfl
  case sb | sh | sw | csw | cswsp => exact .straight (.store fun _ _ _ => rfl) (by simp) rfl rfl
  case lrw => exact .straight .lrw (by simp) rfl rfl
  case scw => exact .straight .scw (by simp) rfl rfl
  case amoswapw | amoaddw | amoxorw | amoandw | amoorw | amominw | amomaxw | amominuw | amomaxuw =>
    exact .straight (.amo _) (by simp) rfl rfl
  case flw | cflw | cflwsp => exact .straight (.flw _) (by simp) rfl rfl
  case fsw | cfsw | cfswsp => exact .straight (.fsw _) (by simp) rfl rfl
  case fmadds | fmsubs | fnmsubs | fnmadds | fadds | fsubs | fmuls | fdivs | fsqrts | fsgnjs
      | fsgnjns | fsgnjxs | fmins | fmaxs | fcvtsw | fcvtswu | fmvwx =>
    exact .straight (.fpu _) (by simp) rfl rfl
  case fcvtws | fcvtwus | fmvxw | feqs | flts | fles | fclasss =>
    exact .straight (.fpuX _) (by simp) rfl rfl
  case uret | sret | hret | fuse1 | fuse2 | fuse3 | fuse4 | fuse5 | fuse6 | fuse7 | fuse8 | fuse9
      | fuse10 | fuse11 | fuse12 =>
    exact .fail
  all_goals exact .straight (.set _ _) (by simp) rfl rfl

theorem Opcode.endsBlock_of_canBranch {op : Opcode} (h : op.canBranch = true) : op.endsBlock = true := by
  simp [Opcode.endsBlock, h]

theorem Opcode.isIndirectBranch_closed {op : Opcode} (h : op.isIndirectBranch = true) :
    op.canBranch = true ∧ op.tailKind = .closed := by
  cases op <;> first | exact ⟨rfl, rfl⟩ | cases h

theorem Insn.nodeLen_of_not_fuse {ir : Insn} (h : ir.opcode.isFuse = false) :
    ir.nodeLen = ir.opcode.len := by
  unfold Insn.nodeLen
  split <;> simp_all [Opcode.isFuse]

/-! ## Every handler -/

/-- `nextop` and `end_op` of the `RVOP` macro. -/
def Flow.finish (ir : Insn) (lk : Links) (noNext : Bool) (cycle : BitVec 64) (pc : Word) : Flow → Ctl
  | .next s =>
    if noNext then Rv32emu.endOp ir lk cycle (pc + ir.opcode.len) s
    else .next cycle (pc + ir.opcode.len) s
  | .endOp pc s => Rv32emu.endOp ir lk cycle pc s
  | .lookup pc s => .lookup cycle pc s
  | .chain r pc s => .enter r cycle pc s
  | .ret ok s => .ret ok s
  | .trap t s => .trap t s

theorem doRvop_eq_finish (env : Env) (ir : Insn) (lk : Links) (noNext : Bool) (cycle : BitVec 64)
    (pc : Word) (s : Cpu) :
    doRvop env ir lk noNext cycle pc s =
      ((rvop ir.opcode).exec env ir lk (cycle + 1) pc s).finish ir lk noNext (cycle + 1) pc := by
  unfold doRvop
  simp only
  split <;> rename_i h <;> rw [h] <;> rfl

theorem endOp_branch {ir : Insn} (hb : ir.opcode.canBranch = true) (lk : Links) (cycle : BitVec 64)
    (pc : Word) (s : Cpu) : endOp ir lk cycle pc s = .ret true (s.save cycle pc) := by
  unfold endOp
  rw [hb]

namespace NodeStep

section

variable {ir : Insn} {lk : Links} {noNext : Bool} {pc pc' : Word} {s s' : Cpu} {cycle : BitVec 64}

/-- A node that is not a branch leaves the block at its fallthrough address. -/
theorem of_fall (hb : ir.opcode.canBranch = false) (hkind : ir.opcode.tailKind = .fall)
    (hend : noNext = true ∨ ir.opcode = .wfi) (hlast : s'.lastPc = s.lastPc) :
    NodeStep ir lk noNext pc s (endOp ir lk cycle (pc + ir.nodeLen) s') := by
  have htarget : ir.takenTarget pc = pc + ir.nodeLen := by simp [Insn.takenTarget, hkind]
  unfold endOp
  rw [hb]
  rcases hlk : lk.taken with _ | r
  · refine .ret (hend.imp id .inr) ?_ hlast
    simp [Follows, hkind, htarget, Cpu.save]
  · rw [← htarget]
    exact .taken hlk (by simp [hkind]) rfl

theorem of_branch (hb : ir.opcode.canBranch = true)
    (hfollow : Follows ir pc (s'.save cycle pc')) (hlast : s'.lastPc = s.lastPc) :
    NodeStep ir lk noNext pc s (endOp ir lk cycle pc' s') := by
  rw [endOp_branch hb]
  exact .ret (.inr (.inl (Opcode.endsBlock_of_canBranch hb))) hfollow hlast

theorem of_nextop (hfuse : ir.opcode.isFuse = false) (hwfi : ir.opcode ≠ .wfi)
    (hlast : s'.lastPc = s.lastPc)
    (hend : noNext = true → NodeStep ir lk noNext pc s (endOp ir lk cycle (pc + ir.nodeLen) s')) :
    NodeStep ir lk noNext pc s (Flow.finish ir lk noNext cycle pc (.next s')) := by
  simp only [Flow.finish, ← Insn.nodeLen_of_not_fuse hfuse]
  split
  case isTrue h => exact hend h
  case isFalse h => exact .next (by simpa using h) hwfi hlast

theorem of_straight {code : Code} {env : Env} (hcode : code.Straight)
    (hfuse : ir.opcode.isFuse = false) (hwfi : ir.opcode ≠ .wfi)
    (hend : ∀ s', s'.lastPc = s.lastPc → noNext = true →
      NodeStep ir lk noNext pc s (endOp ir lk cycle (pc + ir.nodeLen) s')) :
    NodeStep ir lk noNext pc s ((code.exec env ir lk cycle pc s).finish ir lk noNext cycle pc) := by
  obtain ⟨s', hexec, hlast⟩ | ⟨t, s', hexec, hafter, hlast⟩ := hcode env ir lk cycle pc s
  · rw [hexec]
    exact of_nextop hfuse hwfi hlast (hend s' hlast)
  · rw [hexec]
    exact .trap (.inl hafter) hlast

/-- `branch_taken` is followed, or the target is saved. -/
theorem of_chainOr_taken (hb : ir.opcode.canBranch = true) (hkind : ir.opcode.tailKind ≠ .closed)
    (htarget : ir.takenTarget pc = pc')
    (hfollow : lk.taken = none → Follows ir pc (s'.save cycle pc')) (hlast : s'.lastPc = s.lastPc) :
    NodeStep ir lk noNext pc s ((chainOr lk.taken pc' s').finish ir lk noNext cycle pc) := by
  unfold chainOr
  rcases hlk : lk.taken with _ | r
  · exact of_branch hb (hfollow hlk) hlast
  · rw [← htarget]
    exact .taken hlk hkind rfl

end

end NodeStep

theorem doRvop_nodeStep (env : Env) (ir : Insn) (lk : Links) (noNext : Bool) (cycle : BitVec 64)
    (pc : Word) (s : Cpu) (hfuse : ir.opcode.isFuse = false) :
    NodeStep ir lk noNext pc s (doRvop env ir lk noNext cycle pc s) := by
  have hrow := row ir.opcode
  rw [doRvop_eq_finish]
  generalize rvop ir.opcode = code at hrow
  generalize cycle + 1 = cycle
  -- the address a direct jump follows its link to
  have hdirect (hkind : ir.opcode.tailKind = .direct) : ir.takenTarget pc = pc + ir.imm := by
    simp [Insn.takenTarget, hkind]
  have hjump (hkind : ir.opcode.tailKind = .direct) (s' : Cpu) :
      Follows ir pc (s'.save cycle (pc + ir.imm)) := by
    simp [Follows, hkind, hdirect, Cpu.save]
  cases hrow with
  | straight h hwfi hb hkind =>
    exact .of_straight h hfuse hwfi fun s' hlast hend => .of_fall hb hkind (.inl hend) hlast
  | csrrw h hwfi hb hkind =>
    exact .of_straight h hfuse hwfi fun s' hlast _ => .of_branch hb (.of_closed hkind _ _) hlast
  | wfi hop =>
    have hlen : ir.nodeLen = 4 := by simp [Insn.nodeLen, hop, Opcode.len]
    simp only [Code.exec, Flow.finish, ← hlen]
    exact .of_fall (by rw [hop]; rfl) (by rw [hop]; rfl) (.inr hop) rfl
  | leave hb hkind => exact .of_branch hb (.of_closed hkind _ _) rfl
  | fencei hb hkind =>
    exact .ret (.inr (.inl (Opcode.endsBlock_of_canBranch hb))) (.of_closed hkind _ _) rfl
  | mret hb hkind =>
    exact .ret (.inr (.inl (Opcode.endsBlock_of_canBranch hb))) (.of_closed hkind _ _) rfl
  | ecall hb hkind => exact .trap (.inr ⟨Opcode.endsBlock_of_canBranch hb, hkind⟩) rfl
  | ebreak hb hkind => exact .trap (.inr ⟨Opcode.endsBlock_of_canBranch hb, hkind⟩) rfl
  | branch hwfi hb hkind =>
    simp only [Code.exec]
    split
    · split
      · exact .of_branch hb (.of_closed hkind _ _) rfl
      · exact .of_nextop hfuse hwfi rfl fun _ => .of_branch hb (.of_closed hkind _ _) rfl
    · split
      · exact .trap (.inl rfl) rfl
      · exact .of_branch hb (.of_closed hkind _ _) rfl
  | cbranch hwfi hb hkind hne hlen =>
    have htaken : ir.takenTarget pc = pc + ir.imm := by simp [Insn.takenTarget, hkind, hne]
    have huntaken : ir.untakenTarget pc = pc + 2 := by simp [Insn.untakenTarget, hne]
    simp only [Code.exec]
    split
    · rcases hlk : lk.untaken with _ | r
      · refine .of_nextop hfuse hwfi rfl fun _ => .of_branch hb ?_ rfl
        simp [Follows, hkind, huntaken, Cpu.save, Insn.nodeLen_of_not_fuse hfuse, hlen]
      · show NodeStep ir lk noNext pc s (.enter r cycle (pc + 2) _)
        rw [← huntaken]
        exact .untaken hlk hkind rfl
    · refine .of_chainOr_taken hb (by simp [hkind]) htaken (fun _ => ?_) rfl
      simp [Follows, hkind, htaken, Cpu.save]
  | jal hb hkind =>
    simp only [Code.exec]
    split
    · exact .trap (.inl rfl) (Cpu.setXNz_lastPc ..)
    · exact .of_chainOr_taken hb (by simp [hkind]) (hdirect hkind) (fun _ => hjump hkind _)
        (Cpu.setXNz_lastPc ..)
  | cjal hb hkind =>
    exact .of_chainOr_taken hb (by simp [hkind]) (hdirect hkind) (fun _ => hjump hkind _) rfl
  | cj hb hkind =>
    exact .of_chainOr_taken hb (by simp [hkind]) (hdirect hkind) (fun _ => hjump hkind _) rfl
  | jalr hop =>
    simp only [Code.exec]
    split
    · exact .trap (.inl rfl) (Cpu.setXNz_lastPc ..)
    · exact .lookup hop (Cpu.setXNz_lastPc ..)
  | cjr hop => exact .lookup hop rfl
  | cjalr hop => exact .lookup hop rfl
  | fail => exact .fail

/-! ### Fused handlers -/

/-- A fused node of `len` bytes that falls through and follows no link. -/
structure Insn.FallsThrough (ir : Insn) (len : Word) : Prop where
  closed : ir.opcode.tailKind = .closed
  not_wfi : ir.opcode ≠ .wfi
  nodeLen_eq : ir.nodeLen = len

/-- The length a fused node of opcode `op` has by its `imm2`. -/
def Opcode.fuseLen (op : Opcode) (imm2 : Word) : Word := Insn.nodeLen { opcode := op, imm2 }

theorem Insn.FallsThrough.of_fuse {ir : Insn} {op : Opcode} {len : Word} (h : ir.opcode = op)
    (hop : op.tailKind = .closed ∧ op ≠ .wfi) (hlen : op.fuseLen ir.imm2 = len) :
    ir.FallsThrough len := by
  subst h
  exact ⟨hop.1, hop.2, hlen⟩

theorem fuseNextOrStop_nodeStep {ir : Insn} {lk : Links} {noNext : Bool} {pc len : Word} {s s' : Cpu}
    {cycle : BitVec 64} (h : ir.FallsThrough len) (hlast : s'.lastPc = s.lastPc) :
    NodeStep ir lk noNext pc s (fuseNextOrStop noNext cycle (pc + len) s') := by
  unfold fuseNextOrStop
  rw [← h.nodeLen_eq]
  split
  case isTrue hend => exact .ret (.inl hend) (.of_closed h.closed _ _) hlast
  case isFalse hend => exact .next (by simpa using hend) h.not_wfi hlast

/-- The body of a fused entry leaves `last_pc` alone and raises misaligned accesses only. -/
structure FuseBody.Straight (body : FuseBody) : Prop where
  ok : ∀ f s s', body f s = .ok s' → s'.lastPc = s.lastPc
  error : ∀ f s t s', body f s = .error (t, s') → t.after = .retFalse ∧ s'.lastPc = s.lastPc

theorem checkAligned_cases (env : Env) (cause : Cause) (addr : Word) (s : Cpu) :
    checkAligned env cause addr s = .ok s ∨
    checkAligned env cause addr s =
      .error (⟨cause, addr, .retFalse⟩, { s with compressed := false }) := by
  unfold checkAligned
  split
  · exact .inr rfl
  · exact .inl rfl

theorem FuseBody.Straight.of_ok {body : FuseBody} {g : OpcodeFuse → Cpu → Cpu}
    (h : ∀ f s, body f s = .ok (g f s)) (hg : ∀ f s, (g f s).lastPc = s.lastPc) : body.Straight where
  ok f s s' hs' := by
    rw [h] at hs'
    cases hs'
    exact hg f s
  error f s t s' hs' := by
    rw [h] at hs'
    cases hs'

theorem FuseBody.Straight.of_access {body : FuseBody} (env : Env) (cause : Cause)
    (addr : OpcodeFuse → Cpu → Word) (g : OpcodeFuse → Cpu → Cpu)
    (h : ∀ f s, body f s = (checkAligned env cause (addr f s) s).map (g f))
    (hg : ∀ f s, (g f s).lastPc = s.lastPc) : body.Straight where
  ok f s s' hs' := by
    rw [h] at hs'
    obtain hc | hc := checkAligned_cases env cause (addr f s) s <;> rw [hc] at hs' <;> cases hs'
    exact hg f s
  error f s t s' hs' := by
    rw [h] at hs'
    obtain hc | hc := checkAligned_cases env cause (addr f s) s <;> rw [hc] at hs' <;> cases hs'
    exact ⟨rfl, rfl⟩

theorem FuseBody.Straight.foldlM {body : FuseBody} (h : body.Straight) (fs : List OpcodeFuse) (s : Cpu) :
    (∃ s', fs.foldlM (fun s f => body f s) s = .ok s' ∧ s'.lastPc = s.lastPc) ∨
    ∃ t s', fs.foldlM (fun s f => body f s) s = .error (t, s') ∧ t.after = .retFalse ∧
      s'.lastPc = s.lastPc := by
  induction fs generalizing s with
  | nil => exact .inl ⟨s, rfl, rfl⟩
  | cons f fs ih =>
    rw [List.foldlM_cons]
    rcases hbody : body f s with ⟨t, s1⟩ | s1
    · exact .inr ⟨t, s1, rfl, h.error f s t s1 hbody⟩
    · have hlast := h.ok f s s1 hbody
      obtain ⟨s', hs', hl⟩ | ⟨t, s', hs', hafter, hl⟩ := ih s1
      · exact .inl ⟨s', hs', hl.trans hlast⟩
      · exact .inr ⟨t, s', hs', hafter, hl.trans hlast⟩

theorem fuseSeq_nodeStep {body : FuseBody} (hbody : body.Straight) {ir : Insn} (lk : Links)
    (noNext : Bool) (cycle : BitVec 64) (pc : Word) (s : Cpu) (h : ir.FallsThrough (ir.imm2 * 4)) :
    NodeStep ir lk noNext pc s (fuseSeq body ir noNext cycle pc s) := by
  unfold fuseSeq
  obtain ⟨s', hfold, hlast⟩ | ⟨t, s', hfold, hafter, hlast⟩ :=
    hbody.foldlM (ir.fuse.take ir.imm2.toNat) s
  · simp only [hfold]
    exact fuseNextOrStop_nodeStep h hlast
  · simp only [hfold]
    exact .trap (.inl hafter) hlast

/-- The aligned access of `do_fuse9`, `do_fuse10` and `do_fuse11`. -/
theorem fuseAccess_nodeStep {ir : Insn} {lk : Links} {noNext : Bool} {cycle : BitVec 64} {pc : Word}
    {s : Cpu} (env : Env) (s0 : Cpu) (cause : Cause) (addr : Word) (g : Cpu → Cpu)
    (hg : ∀ s, (g s).lastPc = s.lastPc) (hs0 : s0.lastPc = s.lastPc) (h : ir.FallsThrough 8) :
    NodeStep ir lk noNext pc s (match checkAligned env cause addr s0 with
      | .error (t, s) => .trap t (s.save cycle pc)
      | .ok s => fuseNextOrStop noNext cycle (pc + 8) (g s)) := by
  obtain hc | hc := checkAligned_cases env cause addr s0 <;> rw [hc]
  · exact fuseNextOrStop_nodeStep h ((hg s0).trans hs0)
  · exact .trap (.inl rfl) hs0

theorem doFuse12_nodeStep (ir : Insn) (lk : Links) (noNext : Bool) (cycle : BitVec 64) (pc : Word)
    (s : Cpu) (hop : ir.opcode = .fuse12) :
    NodeStep ir lk noNext pc s (doFuse12 ir lk cycle pc s) := by
  have hkind : ir.opcode.tailKind = .cond := by rw [hop]; rfl
  have hends : ir.opcode.endsBlock = true := by rw [hop]; rfl
  have htaken : ir.takenTarget pc = pc + (4 + ir.imm2) := by rw [Insn.takenTarget, hkind]; simp [hop]
  have huntaken : ir.untakenTarget pc = pc + 8 := by simp [Insn.untakenTarget, hop]
  unfold doFuse12
  simp only [← htaken, ← huntaken]
  split
  · rcases hlk : lk.taken with _ | r
    · refine .ret (.inr (.inl hends)) ?_ rfl
      simp [Follows, hkind, Cpu.save]
    · exact .taken hlk (by simp [hkind]) rfl
  · rcases hlk : lk.untaken with _ | r
    · refine .ret (.inr (.inl hends)) ?_ rfl
      simp [Follows, hkind, Cpu.save]
    · exact .untaken hlk hkind rfl

theorem fuseLui_straight : fuseLui.Straight := .of_ok (fun _ _ => rfl) fun _ _ => rfl

theorem fuseAddi_straight : fuseAddi.Straight := .of_ok (fun _ _ => rfl) fun _ _ => rfl

theorem fuseSw_straight (env : Env) : (fuseSw env).Straight :=
  .of_access env .storeMisaligned (fun f s => s.X f.rs1 + f.imm)
    (fun f s => s.memWriteW (s.X f.rs1 + f.imm) (s.X f.rs2)) (fun f s => by
      obtain hc | hc := checkAligned_cases env .storeMisaligned (s.X f.rs1 + f.imm) s <;>
        simp only [fuseSw, hc] <;> rfl) fun _ _ => rfl

theorem fuseLw_straight (env : Env) : (fuseLw env).Straight :=
  .of_access env .loadMisaligned (fun f s => s.X f.rs1 + f.imm)
    (fun f s => s.setX f.rd (s.memReadW (s.X f.rs1 + f.imm))) (fun f s => by
      obtain hc | hc := checkAligned_cases env .loadMisaligned (s.X f.rs1 + f.imm) s <;>
        simp only [fuseLw, hc] <;> rfl) fun _ _ => rfl

theorem fuseShiftExec_straight : fuseShiftExec.Straight where
  ok f s s' h := by
    unfold fuseShiftExec at h
    split at h <;> cases h <;> rfl
  error f s t s' h := by
    unfold fuseShiftExec at h
    split at h <;> cases h

theorem impl_nodeStep (env : Env) (ir : Insn) (lk : Links) (noNext : Bool) (cycle : BitVec 64)
    (pc : Word) (s : Cpu) : NodeStep ir lk noNext pc s (impl env ir lk noNext cycle pc s) := by
  unfold impl
  split
  case h_1 h => exact fuseSeq_nodeStep fuseLui_straight _ _ _ _ _ (.of_fuse h ⟨rfl, by simp⟩ rfl)
  case h_2 h => exact fuseNextOrStop_nodeStep (.of_fuse h ⟨rfl, by simp⟩ rfl) rfl
  case h_3 h => exact fuseSeq_nodeStep (fuseSw_straight env) _ _ _ _ _ (.of_fuse h ⟨rfl, by simp⟩ rfl)
  case h_4 h => exact fuseSeq_nodeStep (fuseLw_straight env) _ _ _ _ _ (.of_fuse h ⟨rfl, by simp⟩ rfl)
  case h_5 h => exact fuseSeq_nodeStep fuseShiftExec_straight _ _ _ _ _ (.of_fuse h ⟨rfl, by simp⟩ rfl)
  case h_6 h => exact .trap (.inr (by rw [h]; exact ⟨rfl, rfl⟩)) rfl
  case h_7 h => exact fuseSeq_nodeStep fuseAddi_straight _ _ _ _ _ (.of_fuse h ⟨rfl, by simp⟩ rfl)
  case h_8 h => exact fuseNextOrStop_nodeStep (.of_fuse h ⟨rfl, by simp⟩ rfl) rfl
  case h_9 h => exact fuseAccess_nodeStep env _ _ _ _ (fun _ => rfl) rfl (.of_fuse h ⟨rfl, by simp⟩ rfl)
  case h_10 h => exact fuseAccess_nodeStep env _ _ _ _ (fun _ => rfl) rfl (.of_fuse h ⟨rfl, by simp⟩ rfl)
  case h_11 h => exact fuseAccess_nodeStep env _ _ _ _ (fun _ => rfl) rfl (.of_fuse h ⟨rfl, by simp⟩ rfl)
  case h_12 h => exact doFuse12_nodeStep ir lk noNext cycle pc s h
  case h_13 =>
    refine doRvop_nodeStep env ir lk noNext cycle pc s ?_
    unfold Opcode.isFuse
    split <;> first | rfl | contradiction

end Rv32emu
