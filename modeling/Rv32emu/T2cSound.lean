import Rv32emu.NodeStep
import Rv32emu.RvcSound
import Rv32emu.T2c

/-!
# Tier-2 code of base instructions against the interpreter

* `Visible` : registers, memory and next `PC`, as `Ctl.visible` takes them from a handler of the interpreter
  and `t2cVisible` from the execution of the code that the `T2C_OP` handler has emitted;
* `T2cLinks.Right`, `T2cState.Published`, `Insn.AccessOk` : what the linker, the publisher of compiled code
  and the claim on loads and stores promise;
* `T2cDefined` : the states in which the emitted code means what the interpreter does;
* `t2c_agrees_iff` : it does so exactly in those.
-/

namespace Rv32emu

open Llvm

/-! ## What is compared -/

structure Visible where
  X : Reg → Word
  mem : Mem
  pc : Word

def Cpu.visibleAt (s : Cpu) (pc : Word) : Visible := ⟨s.X, s.mem, pc⟩

/-- A trap is taken before the next instruction. -/
def Ctl.visible (env : Env) : Ctl → Visible
  | .next _ pc s | .enter _ _ pc s | .lookup _ pc s => s.visibleAt pc
  | .ret _ s => s.visibleAt s.PC
  | .trap t s => (t.take env s).1.visibleAt (t.take env s).1.PC

/-- Where execution goes on: published code starts at its block, a builder that was handed over goes on with
the linked block, and `next` follows a node that hands nothing over. -/
def Handed.nextPc (handed : Handed) (lk : T2cLinks) (next : Word) (s : Cpu) : Exit Word → Option Word
  | .ret => some s.PC
  | .left pc => some pc
  | .fall b =>
    if handed.taken = some b then lk.taken
    else if handed.untaken = some b then lk.untaken
    else some next

/-- The code of `code`, executed from its start. -/
def t2cRun (env : Env) (cfg : T2cEnv) (code : T2cBuild Handed) (r : Regs HostPtr) (s : T2cState) :
    Option (Handed × Exit Word × T2cState) :=
  (code {}).bind fun x => (x.2.exec (t2cHost env cfg.memBase) r s).map fun y => (x.1, y)

/-- What the code emitted for a node does; `none` if the emission or an operation of the code is undefined. -/
def t2cVisible (env : Env) (cfg : T2cEnv) (lk : T2cLinks) (ir : Insn) (r : Regs HostPtr) (s : T2cState) :
    Option Visible :=
  (t2cRun env cfg (t2c cfg lk ir) r s).bind fun x =>
    (x.1.nextPc lk (ir.pc + ir.nodeLen) x.2.2.cpu x.2.1).map x.2.2.cpu.visibleAt

/-! ## What is promised -/

def Insn.linkTaken (ir : Insn) : Word :=
  if ir.opcode = .fuse12 then ir.pc + 4 + ir.imm2 else ir.pc + ir.imm

def Insn.linkUntaken (ir : Insn) : Word :=
  if ir.opcode = .fuse12 then ir.pc + 8 else ir.pc + ir.opcode.len

/-- `rv_step` links a branch to the block at the address the branch has gone to. -/
structure T2cLinks.Right (lk : T2cLinks) (ir : Insn) : Prop where
  taken : ∀ pc, lk.taken = some pc → pc = ir.linkTaken
  untaken : ∀ pc, lk.untaken = some pc → pc = ir.linkUntaken

/-- Code is published under the address of its block. -/
def T2cState.Published (s : T2cState) : Prop :=
  ∀ t i pc, (s.tables t i).entry = some pc → (s.tables t i).key = pc.setWidth 64

/-- Other values of `rv->compressed` and of the cycle count. -/
def Cpu.tweak (s : Cpu) (compressed : Bool) (cycle : BitVec 64) : Cpu :=
  { s with compressed, csr := { s.csr with cycle } }

/-- `syscall_handler` leaves `rv->PC` alone and reads neither `rv->compressed` nor the cycle count. -/
structure Env.SyscallLocal (env : Env) : Prop where
  pc : ∀ n s, (env.syscallHandler n s).PC = s.PC
  X : ∀ n s c t, (env.syscallHandler n (s.tweak c t)).X = (env.syscallHandler n s).X
  mem : ∀ n s c t, (env.syscallHandler n (s.tweak c t)).mem = (env.syscallHandler n s).mem

def Opcode.accessSize : Opcode → Option Nat
  | .lb | .lbu | .sb => some 1
  | .lh | .lhu | .sh => some 2
  | .lw | .sw | .clw | .csw | .clwsp | .cswsp => some 4
  | _ => none

def Insn.accessBase (ir : Insn) : Reg :=
  match ir.opcode with
  | .clwsp | .cswsp => regSp
  | _ => ir.rs1

/-- `base + imm` without a wrap around `2 ^ 32`. -/
def InRange (base imm : Word) : Prop :=
  0 ≤ (base.toNat : Int) + imm.toInt ∧ (base.toNat : Int) + imm.toInt < 2 ^ 32

/-- The effective address does not wrap and is aligned. -/
def Insn.AccessOk (ir : Insn) (s : Cpu) : Prop :=
  ∀ n, ir.opcode.accessSize = some n →
    InRange (s.X ir.accessBase) ir.imm ∧ (s.X ir.accessBase + ir.imm).toNat % n = 0

/-! ## Where the code means the same -/

/-- `x / y` and `x % y` are defined in LLVM. -/
def SDivOk (x y : Word) : Prop := y ≠ 0 ∧ ¬ (x = BitVec.intMin 32 ∧ y = BitVec.allOnes 32)

/-- The trap handler does not use `rv->compressed`, or finds the length of the instruction there. -/
def Cpu.LengthOk (s : Cpu) (compressed : Bool) : Prop :=
  s.usesDefaultHandler = true → s.compressed = compressed

/-- The states in which the code of a base instruction means what the interpreter does. -/
def T2cDefined (ir : Insn) (s : Cpu) : Prop :=
  match ir.opcode with
  | .nop => s.X regZero = 0
  | .div | .rem => SDivOk (s.X ir.rs1) (s.X ir.rs2)
  | .divu | .remu => s.X ir.rs2 ≠ 0
  | .csrli | .csrai => ir.shamt.toNat < 32
  | .cslli => (ir.imm.setWidth 8).toNat < 32
  | .caddi4spn => ir.imm.getLsbD 15 = false
  | .ecall | .ebreak => s.LengthOk false
  | .cebreak => s.LengthOk true
  | .cflwsp | .cfswsp | .cflw | .cfsw => False
  | _ => True

/-! ## Straight-line handlers -/

def T2cState.tick (s : T2cState) : T2cState := { s with insnCounter := s.insnCounter + 1 }

def T2cState.setX (s : T2cState) (rd : Reg) (v : Word) : T2cState := { s with cpu := s.cpu.setX rd v }

def T2cState.setPC (s : T2cState) (pc : Word) : T2cState := { s with cpu := { s.cpu with PC := pc } }

def T2cState.flush (s : T2cState) : T2cState :=
  { s with cpu := { s.cpu with csr := { s.cpu.csr with cycle := s.cpu.csr.cycle + s.insnCounter } } }

section Run

variable (env : Env) (cfg : T2cEnv) (r : Regs HostPtr) (s : T2cState)

/-- The code falls through after `X[rd] = v`. -/
def wrote (rd : Reg) (v : Word) : Handed × Exit Word × T2cState := ({}, .fall 0, s.tick.setX rd v)

theorem run_skip : t2cRun env cfg (t2cOp (return {})) r s = some ({}, .fall 0, s.tick) := rfl

theorem run_storeImm (rd : Reg) (imm : Word) :
    t2cRun env cfg (t2cOp (t2cStoreImm rd imm)) r s = (some imm).map (wrote s rd) := rfl

/-- Code that goes on with the value of one operation. -/
theorem map_eval {w : Nat} {s : T2cState} {k : BitVec w → T2cState → Option (Exit Word × T2cState)}
    {handed : Handed} {f : BitVec w → Handed × Exit Word × T2cState} (o : Option (BitVec w))
    (h : ∀ v, (k v s).map (fun y => (handed, y)) = some (f v)) :
    ((o.map (done s)).bind (Returned.andThen k)).map (fun y => (handed, y)) = o.map f := by
  cases o with
  | none => rfl
  | some v => exact h v

theorem run_aluImm (op : BinOp) (rs rd : Reg) (imm : Word) :
    t2cRun env cfg (t2cOp (t2cAluImm op rs rd imm)) r s = (op.eval (s.cpu.X rs) imm).map (wrote s rd) :=
  map_eval _ fun _ => rfl

theorem run_alu (op : BinOp) (ir : Insn) :
    t2cRun env cfg (t2cOp (t2cAlu op ir)) r s =
      (op.eval (s.cpu.X ir.rs1) (s.cpu.X ir.rs2)).map (wrote s ir.rd) :=
  map_eval _ fun _ => rfl

theorem run_shift (op : BinOp) (ir : Insn) :
    t2cRun env cfg (t2cOp (t2cShift op ir)) r s =
      (op.eval (s.cpu.X ir.rs1) (s.cpu.X ir.rs2 &&& 0x1f)).map (wrote s ir.rd) :=
  map_eval _ fun _ => rfl

theorem run_update (op : BinOp) (rd : Reg) (imm : Word) :
    t2cRun env cfg (t2cOp (t2cUpdate op rd imm)) r s = (op.eval (s.cpu.X rd) imm).map (wrote s rd) :=
  map_eval _ fun _ => rfl

theorem select_truth (c : Bool) : (if truth (bit c) then (1 : Word) else 0) = ofCond c := by
  rw [truth_bit]
  rfl

theorem run_setImm (p : Pred) (ir : Insn) (imm : Word) :
    t2cRun env cfg (t2cOp (t2cSet p ir (pure (constInt imm)))) r s =
      (some (ofCond (p.eval (s.cpu.X ir.rs1) imm))).map (wrote s ir.rd) := by
  rw [← select_truth]
  rfl

theorem run_set (p : Pred) (ir : Insn) :
    t2cRun env cfg (t2cOp (t2cSet p ir (loadVmreg 0 32 ir.rs2))) r s =
      (some (ofCond (p.eval (s.cpu.X ir.rs1) (s.cpu.X ir.rs2)))).map (wrote s ir.rd) := by
  rw [← select_truth]
  rfl

theorem run_mul (ext1 ext2 : CastOp) (op : BinOp) (v : BitVec 64) (ir : Insn) :
    t2cRun env cfg (t2cOp (t2cMul ext1 ext2 (op, v) ir)) r s =
      ((op.eval (ext1.eval (s.cpu.X ir.rs1) 64 * ext2.eval (s.cpu.X ir.rs2) 64) v).map fun p =>
        BitVec.setWidth 32 p).map (wrote s ir.rd) := by
  rw [Option.map_map]
  exact map_eval _ fun _ => rfl

/-! ## Memory accesses -/

/-- The host address of `X[base] + imm`. -/
def hostAddr (mb : BitVec 64) (base imm : Word) : BitVec 64 := base.setWidth 64 + (imm.signExtend 64 + mb)

variable (mb : BitVec 64) (chk : Word → Bool)

/-- Code that goes on with a value loaded from guest memory. -/
theorem map_load {w : Nat} {s : T2cState} {k : BitVec w → T2cState → Option (Exit Word × T2cState)}
    {handed : Handed} {g : BitVec 64 → BitVec w} {f : BitVec 64 → Handed × Exit Word × T2cState}
    (o : Option (BitVec 64)) (h : ∀ off, (k (g off) s).map (fun y => (handed, y)) = some (f off)) :
    (((o.map g).map (done s)).bind (Returned.andThen k)).map (fun y => (handed, y)) = o.map f := by
  cases o with
  | none => rfl
  | some off => exact h off

theorem run_load8 (f : IoFn) (ext : CastOp) (base rd : Reg) (imm : Word) :
    t2cRun env ⟨false, mb, chk⟩ (t2cOp (t2cLoad ⟨false, mb, chk⟩ f 8 ext base rd imm)) r s =
      (guestOffset mb 8 (hostAddr mb (s.cpu.X base) imm)).map fun off =>
        wrote s rd (ext.eval (s.cpu.mem.readB off) 32) :=
  map_load _ fun _ => rfl

theorem run_load16 (f : IoFn) (ext : CastOp) (base rd : Reg) (imm : Word) :
    t2cRun env ⟨false, mb, chk⟩ (t2cOp (t2cLoad ⟨false, mb, chk⟩ f 16 ext base rd imm)) r s =
      (guestOffset mb 16 (hostAddr mb (s.cpu.X base) imm)).map fun off =>
        wrote s rd (ext.eval (s.cpu.mem.readS off) 32) :=
  map_load _ fun _ => rfl

theorem run_load32 (f : IoFn) (ext : CastOp) (base rd : Reg) (imm : Word) :
    t2cRun env ⟨false, mb, chk⟩ (t2cOp (t2cLoad ⟨false, mb, chk⟩ f 32 ext base rd imm)) r s =
      (guestOffset mb 32 (hostAddr mb (s.cpu.X base) imm)).map fun off => wrote s rd (s.cpu.mem.readW off) :=
  map_load _ fun _ => rfl

def stored (mem : Mem) : Handed × Exit Word × T2cState := ({}, .fall 0, s.tick.withMem mem)

theorem map_store {k : T2cState → Option (Exit Word × T2cState)} {handed : Handed}
    {g : BitVec 64 → T2cState} {f : BitVec 64 → Handed × Exit Word × T2cState} (o : Option (BitVec 64))
    (h : ∀ off, (k (g off)).map (fun y => (handed, y)) = some (f off)) :
    ((o.map g).bind k).map (fun y => (handed, y)) = o.map f := by
  cases o with
  | none => rfl
  | some v => exact h v

theorem run_store8 (f : IoFn) (base rs2 : Reg) (imm : Word) :
    t2cRun env ⟨false, mb, chk⟩ (t2cOp (t2cStore ⟨false, mb, chk⟩ f 8 base rs2 imm)) r s =
      (guestOffset mb 8 (hostAddr mb (s.cpu.X base) imm)).map fun off =>
        stored s (s.cpu.mem.writeB off ((s.cpu.X rs2).setWidth 8)) :=
  map_store _ fun _ => rfl

theorem run_store16 (f : IoFn) (base rs2 : Reg) (imm : Word) :
    t2cRun env ⟨false, mb, chk⟩ (t2cOp (t2cStore ⟨false, mb, chk⟩ f 16 base rs2 imm)) r s =
      (guestOffset mb 16 (hostAddr mb (s.cpu.X base) imm)).map fun off =>
        stored s (s.cpu.mem.writeS off ((s.cpu.X rs2).setWidth 16)) :=
  map_store _ fun _ => rfl

theorem run_store32 (f : IoFn) (base rs2 : Reg) (imm : Word) :
    t2cRun env ⟨false, mb, chk⟩ (t2cOp (t2cStore ⟨false, mb, chk⟩ f 32 base rs2 imm)) r s =
      (guestOffset mb 32 (hostAddr mb (s.cpu.X base) imm)).map fun off =>
        stored s (s.cpu.mem.writeW off (s.cpu.X rs2)) :=
  map_store _ fun _ => rfl

theorem run_cswsp (ir : Insn) :
    t2cRun env ⟨false, mb, chk⟩ (t2cOp (t2cCswsp ⟨false, mb, chk⟩ ir)) r s =
      (guestOffset mb 32 (hostAddr mb (s.cpu.X regSp) ir.imm)).map fun off =>
        stored s (s.cpu.mem.writeW off (s.cpu.X ir.rs2)) :=
  map_store _ fun _ => rfl

/-! ## Jumps and branches -/

/-- The end of code that follows the link `b`, or returns at `pc`. -/
def chained (s : T2cState) (chain : Bool) (b : Builder) (pc : Word) : Exit Word × T2cState :=
  if chain then (.fall b, s) else (.ret, (s.setPC pc).flush)

theorem run_jump (chain : Bool) (target : Word) :
    t2cRun env cfg (t2cOp (t2cJump chain target)) r s =
      some ({ taken := if chain then some 0 else none }, chained s.tick chain 0 target) := by
  cases chain <;> rfl

theorem run_jal (rd : Reg) (link target : Word) (chain : Bool) :
    t2cRun env cfg (t2cOp (do storeLink rd link; t2cJump chain target)) r s =
      some ({ taken := if chain then some 0 else none },
        chained (if rd = 0 then s.tick else s.tick.setX rd link) chain 0 target) := by
  unfold storeLink
  by_cases hrd : rd = 0
  · rw [if_pos hrd, if_pos hrd]
    cases chain <;> rfl
  · rw [if_neg hrd, if_neg hrd]
    cases chain <;> rfl

theorem run_cjal (link target : Word) (chain : Bool) :
    t2cRun env cfg (t2cOp (do storeImm32 0 link (← genAddr 0 (.X regRa)); t2cJump chain target)) r s =
      some ({ taken := if chain then some 0 else none },
        chained (s.tick.setX regRa link) chain 0 target) := by
  cases chain <;> rfl

def branched (s : T2cState) (chainTaken chainUntaken c : Bool) (target next : Word) :
    Handed × Exit Word × T2cState :=
  ({ taken := if chainTaken then some 1 else none, untaken := if chainUntaken then some 2 else none },
    if truth (bit c) then chained s chainTaken 1 target else chained s chainUntaken 2 next)

theorem map_ite {c : Bool} {x y : Option (Exit Word × T2cState)} {a b : Exit Word × T2cState}
    {handed : Handed} (hx : x = some a) (hy : y = some b) :
    (if c then x else y).map (fun z => (handed, z)) = some (handed, if c then a else b) := by
  subst hx hy
  cases c <;> rfl

theorem run_branchFunc (lk : T2cLinks) (p : Pred) (ir : Insn) :
    t2cRun env cfg (t2cOp (t2cBranchFunc cfg lk p ir)) r s =
      some (branched s.tick (cfg.valid lk.taken) (cfg.valid lk.untaken)
        (p.eval (s.cpu.X ir.rs1) (s.cpu.X ir.rs2)) (ir.pc + ir.imm) (ir.pc + 4)) := by
  unfold t2cBranchFunc
  generalize cfg.valid lk.taken = tk
  generalize cfg.valid lk.untaken = utk
  cases tk <;> cases utk <;> exact map_ite rfl rfl

theorem run_cbranch (lk : T2cLinks) (p : Pred) (ir : Insn) :
    t2cRun env cfg (t2cOp (t2cCBranch lk p ir)) r s =
      some (branched s.tick lk.taken.isSome lk.untaken.isSome (p.eval (s.cpu.X ir.rs1) 0) (ir.pc + ir.imm)
        (ir.pc + 2)) := by
  unfold t2cCBranch
  generalize lk.taken.isSome = tk
  generalize lk.untaken.isSome = utk
  cases tk <;> cases utk <;> exact map_ite rfl rfl

/-! ## Traps -/

theorem map_call {α β γ δ : Type} {o : Option α} {a : α} {g : α → β} {k : β → Option γ} {f : γ → δ} {x : δ}
    (h : o = some a) (hk : (k (g a)).map f = some x) : ((o.map g).bind k).map f = some x := by
  subst h
  exact hk

theorem run_trap {f : IoFn} {pc : Word} {cpu : Cpu} (h : ioTrap env f (s.setPC pc).cpu = some cpu) :
    t2cRun env cfg (t2cOp (t2cTrap f pc)) r s = some ({}, .ret, ({ s.tick with cpu } : T2cState).flush) :=
  map_call h rfl

/-! ## Indirect jumps -/

/-- The index of `addr` in a code table. -/
def slotIndex (addr mask : Word) : BitVec 64 := ((addr ^^^ (addr >>> 12)) &&& mask).setWidth 64

/-- Published code is called in tail position. -/
def enterCode (p : HostPtr) (s : T2cState) : Option (Exit Word × T2cState) :=
  (t2cCall env (.int 0) p s.flush).bind (Returned.andThen fun _ s => some (.ret, s))

def isCode (p : HostPtr) : Bool := !decide (p = .null)

/-- What was found in `jit_cache` is stored in `inline_cache`. -/
def fillInlineCache (i key : BitVec 64) (p : HostPtr) (s : T2cState) : Option T2cState :=
  t2cStorePtr mb .ptr (.slotField .inlineCache i .entry) p
    (s.setSlot .inlineCache i { s.tables .inlineCache i with key })

/-- What the code of `t2c_jit_cache_helper` does. -/
def indirect (addr : Word) (s : T2cState) : Option (Exit Word × T2cState) :=
  let key : BitVec 64 := addr.setWidth 64
  let i := slotIndex addr 0x3ff
  let ic := s.tables .inlineCache i
  let jc := s.tables .jitCache (slotIndex addr 0xfff)
  let fallback := some (.ret, (s.setPC addr).flush)
  if truth (bit (ic.key == key) &&& bit (isCode (codePtr ic.entry))) then enterCode env (codePtr ic.entry) s
  else if truth (bit (jc.seq &&& 1 == 0)) then
    if truth (bit (jc.key == key)) then
      if truth (bit (jc.seq == jc.seq) &&& bit (isCode (codePtr jc.entry))) then
        (fillInlineCache mb i key (codePtr jc.entry) s).bind (enterCode env (codePtr jc.entry))
      else fallback
    else fallback
  else fallback

theorem exec_cjr (ir : Insn) :
    ∃ f, t2cOp (t2cCjr ⟨false, mb, chk⟩ ir) {} = some ({}, f) ∧
      f.exec (t2cHost env mb) r s = indirect env mb (s.cpu.X ir.rs1) s.tick := by
  refine ⟨_, rfl, ?_⟩
  dsimp only [indirect]
  refine ite_congr rfl (fun _ => rfl) fun _ => ite_congr rfl (fun _ => ?_) fun _ => rfl
  exact ite_congr rfl (fun _ => ite_congr rfl (fun _ => rfl) fun _ => rfl) fun _ => rfl

theorem exec_cjalr (ir : Insn) :
    ∃ f, t2cOp (t2cCjalr ⟨false, mb, chk⟩ ir) {} = some ({}, f) ∧
      f.exec (t2cHost env mb) r s =
        indirect env mb (s.cpu.X ir.rs1) (s.tick.setX regRa (ir.pc + 2)) := by
  refine ⟨_, rfl, ?_⟩
  dsimp only [indirect]
  refine ite_congr rfl (fun _ => rfl) fun _ => ite_congr rfl (fun _ => ?_) fun _ => rfl
  exact ite_congr rfl (fun _ => ite_congr rfl (fun _ => rfl) fun _ => rfl) fun _ => rfl

/-- `jalr` without the test of `rd`. -/
theorem exec_jalr_link (ir : Insn) (link : T2cBuild Unit) {s' : T2cState}
    (h : link = pure () ∧ s' = s.tick ∨
      link = (do storeImm32 0 (ir.pc + 4) (← genAddr 0 (.X ir.rd))) ∧ s' = s.tick.setX ir.rd (ir.pc + 4)) :
    ∃ f, t2cOp (do
        let val ← loadVmreg 0 32 ir.rs1
        let val ← buildBin 0 .add val (constInt ir.imm)
        let val ← buildBin 0 .and val (constInt (~~~(1 : Word)))
        link
        t2cJitCacheHelper ⟨false, mb, chk⟩ val) {} = some ({}, f) ∧
      f.exec (t2cHost env mb) r s = indirect env mb ((s.cpu.X ir.rs1 + ir.imm) &&& ~~~1) s' := by
  rcases h with ⟨rfl, rfl⟩ | ⟨rfl, rfl⟩
  all_goals
    refine ⟨_, rfl, ?_⟩
    dsimp only [indirect]
    refine ite_congr rfl (fun _ => rfl) fun _ => ite_congr rfl (fun _ => ?_) fun _ => rfl
    exact ite_congr rfl (fun _ => ite_congr rfl (fun _ => rfl) fun _ => rfl) fun _ => rfl

end Run

/-! ## The interpreter -/

/-- What a body followed by the instruction at `next` has done. -/
def Flow.visible (env : Env) (next : Word) : Flow → Visible
  | .next s => s.visibleAt next
  | .endOp pc s | .lookup pc s | .chain _ pc s => s.visibleAt pc
  | .ret _ s => s.visibleAt s.PC
  | .trap t s => (t.take env s).1.visibleAt (t.take env s).1.PC

theorem endOp_visible (env : Env) (ir : Insn) (lk : Links) (cycle : BitVec 64) (pc : Word) (s : Cpu) :
    (endOp ir lk cycle pc s).visible env = s.visibleAt pc := by
  unfold endOp
  split <;> rfl

theorem doRvop_visible (env : Env) (ir : Insn) (lk : Links) (noNext : Bool) (cycle : BitVec 64) (pc : Word)
    (s : Cpu) :
    (doRvop env ir lk noNext cycle pc s).visible env =
      ((rvop ir.opcode).exec env ir lk (cycle + 1) pc s).visible env (pc + ir.opcode.len) := by
  simp only [doRvop]
  cases (rvop ir.opcode).exec env ir lk (cycle + 1) pc s with
  | next s1 =>
    cases noNext with
    | false => rfl
    | true => exact endOp_visible ..
  | endOp pc1 s1 => exact endOp_visible ..
  | lookup pc1 s1 | chain r pc1 s1 | ret ok s1 | trap t s1 => rfl

theorem chainOr_visible (env : Env) (next : Word) (link : Option Ref) (pc : Word) (s : Cpu) :
    (chainOr link pc s).visible env next = s.visibleAt pc := by
  cases link <;> rfl

theorem impl_of_not_fuse {ir : Insn} (h : ir.opcode.isFuse = false) (env : Env) (lk : Links) (noNext : Bool)
    (cycle : BitVec 64) (pc : Word) (s : Cpu) :
    impl env ir lk noNext cycle pc s = doRvop env ir lk noNext cycle pc s := by
  obtain ⟨imm, rd, rs1, rs2, opcode, shamt, rm, imm2, fuse, ipc⟩ := ir
  cases opcode <;> first | rfl | cases h

/-- The emitted code reaches no undefined operation and does what the handler of the interpreter does. -/
def T2cAgrees (env : Env) (cfg : T2cEnv) (lk : T2cLinks) (ir : Insn) (r : Regs HostPtr) (s : T2cState)
    (links : Links) (noNext : Bool) (cycle : BitVec 64) : Prop :=
  t2cVisible env cfg lk ir r s = some ((impl env ir links noNext cycle ir.pc s.cpu).visible env)

section Agree

variable {env : Env} {cfg : T2cEnv} {lk : T2cLinks} {ir : Insn} {r : Regs HostPtr} {s : T2cState} {links : Links}
  {noNext : Bool} {cycle : BitVec 64} {code : T2cBuild Handed}

theorem t2cAgrees_iff (hfuse : ir.opcode.isFuse = false) :
    T2cAgrees env cfg lk ir r s links noNext cycle ↔
      t2cVisible env cfg lk ir r s =
        some (((rvop ir.opcode).exec env ir links (cycle + 1) ir.pc s.cpu).visible env
          (ir.pc + ir.opcode.len)) := by
  unfold T2cAgrees
  rw [impl_of_not_fuse hfuse, doRvop_visible]

theorem t2cVisible_of_run (pc : Word) {x : Handed × Exit Word × T2cState}
    (hrun : t2cRun env cfg code r s = some x) (hcode : t2c cfg lk ir = code)
    (hpc : x.1.nextPc lk (ir.pc + ir.nodeLen) x.2.2.cpu x.2.1 = some pc) :
    t2cVisible env cfg lk ir r s = some (x.2.2.cpu.visibleAt pc) := by
  unfold t2cVisible
  rw [hcode, hrun, Option.bind_some, hpc]
  rfl

/-- Code that computes `X[rd]` and falls through. -/
theorem t2cVisible_wrote {o : Option Word} {rd : Reg} (hrun : t2cRun env cfg code r s = o.map (wrote s rd))
    (hcode : t2c cfg lk ir = code) :
    t2cVisible env cfg lk ir r s = o.map fun v => (s.cpu.setX rd v).visibleAt (ir.pc + ir.nodeLen) := by
  cases o with
  | none =>
    unfold t2cVisible
    rw [hcode, hrun]
    rfl
  | some v => exact t2cVisible_of_run _ hrun hcode rfl

theorem Cpu.setX_visibleAt_inj {c : Cpu} {rd : Reg} {v w : Word} {pc : Word} :
    (c.setX rd v).visibleAt pc = (c.setX rd w).visibleAt pc ↔ v = w := by
  constructor
  · intro h
    have hx := congrFun (congrArg Visible.X h) rd
    simpa [Cpu.visibleAt, Cpu.setX] using hx
  · rintro rfl
    rfl

/-- Such code agrees exactly if it computes the value of the row. -/
theorem t2cAgrees_set {o : Option Word} {rd : Reg} (hrun : t2cRun env cfg code r s = o.map (wrote s rd))
    (hfuse : ir.opcode.isFuse = false) (hcode : t2c cfg lk ir = code) {dst : Insn → Reg}
    {val : Insn → (Reg → Word) → Word → Word} (hrow : rvop ir.opcode = .set dst val) (hdst : dst ir = rd) :
    T2cAgrees env cfg lk ir r s links noNext cycle ↔ o = some (val ir s.cpu.X ir.pc) := by
  rw [t2cAgrees_iff hfuse, t2cVisible_wrote hrun hcode, hrow, Insn.nodeLen_of_not_fuse hfuse]
  subst hdst
  cases o with
  | none => exact ⟨fun h => (nomatch h), fun h => (nomatch h)⟩
  | some v =>
    rw [Option.map_some, Option.some_inj, Option.some_inj]
    exact Cpu.setX_visibleAt_inj

theorem t2cAgrees_value {o : Option Word} {rd : Reg} (hrun : t2cRun env cfg code r s = o.map (wrote s rd))
    (hfuse : ir.opcode.isFuse = false) (hcode : t2c cfg lk ir = code) {dst : Insn → Reg}
    {val : Insn → (Reg → Word) → Word → Word} (hrow : rvop ir.opcode = .set dst val) (hdst : dst ir = rd)
    (hval : o = some (val ir s.cpu.X ir.pc)) :
    T2cAgrees env cfg lk ir r s links noNext cycle :=
  (t2cAgrees_set hrun hfuse hcode hrow hdst).mpr hval

end Agree

/-! ## Values -/

theorem guard_eq_some_iff {α : Type} {c : Prop} [Decidable c] {v w : α} (h : c → v = w) :
    (if c then some v else none) = some w ↔ c := by
  by_cases hc : c
  · simp [hc, h hc]
  · simp [hc]

theorem unless_eq_some_iff {α : Type} {c : Prop} [Decidable c] {v w : α} (h : ¬ c → v = w) :
    (if c then none else some v) = some w ↔ ¬ c := by
  by_cases hc : c
  · simp [hc]
  · simp [hc, h hc]

theorem and_1f_lt (y : Word) : (y &&& 0x1f).toNat < 32 := by
  rw [and_1f_toNat]
  omega

theorem shl_defined (x y : Word) : BinOp.eval x (y &&& 0x1f) .shl = some (x <<< (y &&& 0x1f).toNat) :=
  if_pos (and_1f_lt y)

theorem lshr_defined (x y : Word) : BinOp.eval x (y &&& 0x1f) .lshr = some (x >>> (y &&& 0x1f).toNat) :=
  if_pos (and_1f_lt y)

theorem ashr_defined (x y : Word) :
    BinOp.eval x (y &&& 0x1f) .ashr = some (x.sshiftRight (y &&& 0x1f).toNat) :=
  if_pos (and_1f_lt y)

/-- The operands of a signed division that LLVM leaves undefined. -/
theorem sdivOk_iff (x y : Word) : SDivOk x y ↔ ¬ (y = 0 ∨ x = BitVec.intMin 32 ∧ y = BitVec.allOnes 32) :=
  not_or.symm

theorem sdiv_eval_iff (x y : Word) : BinOp.eval x y .sdiv = some (divVal x y) ↔ SDivOk x y := by
  rw [sdivOk_iff]
  refine unless_eq_some_iff fun hub => ?_
  obtain ⟨h0, hov⟩ := not_or.mp hub
  rw [divVal, if_neg h0, if_neg fun h => hov h.symm]

theorem srem_eval_iff (x y : Word) : BinOp.eval x y .srem = some (remVal x y) ↔ SDivOk x y := by
  rw [sdivOk_iff]
  refine unless_eq_some_iff fun hub => ?_
  obtain ⟨h0, hov⟩ := not_or.mp hub
  rw [remVal, if_neg h0, if_neg fun h => hov h.symm]

theorem udiv_eval_iff (x y : Word) : BinOp.eval x y .udiv = some (divuVal x y) ↔ y ≠ 0 :=
  unless_eq_some_iff fun h0 => (if_neg h0).symm

theorem urem_eval_iff (x y : Word) : BinOp.eval x y .urem = some (remuVal x y) ↔ y ≠ 0 :=
  unless_eq_some_iff fun h0 => (if_neg h0).symm

theorem toNat_amount (n : BitVec 8) : (n.setWidth 32).toNat = n.toNat := by
  have h := n.isLt
  rw [BitVec.toNat_setWidth]
  omega

theorem shl_eval_iff (x : Word) (n : BitVec 8) :
    BinOp.eval x (n.setWidth 32) .shl = some (shlVar x n) ↔ n.toNat < 32 := by
  rw [← toNat_amount n]
  refine guard_eq_some_iff fun h => ?_
  rw [shlVar, ← toNat_amount n, Nat.mod_eq_of_lt h]

theorem lshr_eval_iff (x : Word) (n : BitVec 8) :
    BinOp.eval x (n.setWidth 32) .lshr = some (x >>> n.toNat) ↔ n.toNat < 32 := by
  rw [← toNat_amount n]
  exact guard_eq_some_iff fun _ => rfl

theorem ashr_eval_iff (x : Word) (n : BitVec 8) :
    BinOp.eval x (n.setWidth 32) .ashr = some (sraLoop x n) ↔ n.toNat < 32 := by
  rw [sraLoop_eq, ← toNat_amount n]
  exact guard_eq_some_iff fun _ => rfl

/-- `(int16_t) imm` and `(uint16_t) imm`. -/
theorem signExtend_eq_iff (imm : Word) :
    (imm.setWidth 16).signExtend 32 = (imm.setWidth 16).setWidth 32 ↔ imm.getLsbD 15 = false := by
  have hmsb : (imm.setWidth 16).msb = imm.getLsbD 15 := by
    rw [BitVec.msb_eq_getLsbD_last]
    simp
  constructor
  · intro h
    have hbit := congrArg (fun x => BitVec.getLsbD x 31) h
    simp only [BitVec.getLsbD_signExtend, hmsb] at hbit
    simpa using hbit
  · intro h
    rw [BitVec.signExtend_eq_setWidth_of_msb_false (hmsb.trans h)]

/-! ## Addresses -/

theorem hostAddr_sub (mb : BitVec 64) {base imm : Word} (h : InRange base imm) :
    hostAddr mb base imm - mb = memOff (base + imm) := by
  have hsum : hostAddr mb base imm - mb = base.setWidth 64 + imm.signExtend 64 := by
    unfold hostAddr
    rw [← BitVec.add_assoc, BitVec.add_sub_cancel]
  have hb := base.isLt
  have hi := imm.isLt
  obtain ⟨h0, h1⟩ := h
  rw [BitVec.toInt_eq_toNat_cond] at h0 h1
  rw [hsum]
  apply BitVec.eq_of_toNat_eq
  unfold memOff
  rw [BitVec.toNat_add, BitVec.toNat_setWidth, BitVec.toNat_setWidth, BitVec.toNat_add,
    BitVec.toNat_signExtend, BitVec.toNat_setWidth, BitVec.msb_eq_decide]
  by_cases hm : 2 ^ (32 - 1) ≤ imm.toNat
  · simp only [hm, decide_true, if_true]
    split at h0 <;> omega
  · simp only [hm, decide_false, Bool.false_eq_true, if_false]
    split at h0 <;> omega

theorem guestOffset_hostAddr (mb : BitVec 64) {base imm : Word} (h : InRange base imm) {w : Nat}
    (hal : (base + imm).toNat % (w / 8) = 0) :
    guestOffset mb w (hostAddr mb base imm) = some (memOff (base + imm)) := by
  have hlt := (base + imm).isLt
  have hoff : (memOff (base + imm)).toNat = (base + imm).toNat := by
    unfold memOff
    rw [BitVec.toNat_setWidth]
    omega
  unfold guestOffset
  rw [hostAddr_sub mb h]
  refine if_pos ?_
  rw [hoff]
  exact ⟨hlt, hal⟩

theorem not_misaligned {env : Env} {a : Word} {n : Nat} {mask : Word} (h : a.toNat % n = 0)
    (hn : n = 1 ∧ mask = 0 ∨ n = 2 ∧ mask = 1 ∨ n = 4 ∧ mask = 3) : misaligned env mask a = false := by
  have hzero : a &&& mask = 0 := by
    apply BitVec.eq_of_toNat_eq
    rw [BitVec.toNat_and]
    rcases hn with ⟨rfl, rfl⟩ | ⟨rfl, rfl⟩ | ⟨rfl, rfl⟩
    · simp
    · exact (Nat.and_two_pow_sub_one_eq_mod a.toNat 1).trans h
    · exact (Nat.and_two_pow_sub_one_eq_mod a.toNat 2).trans h
  simp [misaligned, hzero]

/-! ## Where a jump goes on -/

theorem nextPc_chained {s : T2cState} {chain : Bool} {b : Builder} {handed : Handed} {lk : T2cLinks}
    {next target : Word} (h : chain = true →
      handed.nextPc lk next s.cpu (.fall b) = some target) :
    handed.nextPc lk next (chained s chain b target).2.cpu (chained s chain b target).1 = some target := by
  unfold chained
  cases chain with
  | true => exact h rfl
  | false => rfl

@[simp] theorem chained_visibleAt (s : T2cState) (chain : Bool) (b : Builder) (target pc : Word) :
    (chained s chain b target).2.cpu.visibleAt pc = s.cpu.visibleAt pc := by
  unfold chained
  cases chain <;> rfl

theorem T2cEnv.valid_isSome {cfg : T2cEnv} {link : Option Word} (h : cfg.valid link = true) :
    link.isSome = true := by
  cases link with
  | none => cases h
  | some pc => rfl

section Jumps

variable {env : Env} {cfg : T2cEnv} {lk : T2cLinks} {ir : Insn} {r : Regs HostPtr} {s : T2cState} {links : Links}
  {noNext : Bool} {cycle : BitVec 64} {code : T2cBuild Handed}

/-- A direct jump: the linked block is the one at the target. -/
theorem t2cVisible_jump (hcode : t2c cfg lk ir = code) {s1 : T2cState} {chain : Bool} {target : Word}
    (hrun : t2cRun env cfg code r s =
      some ({ taken := if chain then some 0 else none }, chained s1 chain 0 target))
    (hlink : chain = true → lk.taken.isSome = true) (htaken : ∀ pc, lk.taken = some pc → pc = target) :
    t2cVisible env cfg lk ir r s = some (s1.cpu.visibleAt target) := by
  rw [t2cVisible_of_run target hrun hcode ?_, chained_visibleAt]
  refine nextPc_chained fun hc => ?_
  obtain ⟨pc, hpc⟩ := Option.isSome_iff_exists.mp (hlink hc)
  rw [← htaken pc hpc, ← hpc]
  subst hc
  rfl

theorem t2cVisible_branch (hcode : t2c cfg lk ir = code) {s1 : T2cState} {tk utk c : Bool} {target next : Word}
    (hrun : t2cRun env cfg code r s = some (branched s1 tk utk c target next))
    (htk : tk = true → lk.taken.isSome = true) (hutk : utk = true → lk.untaken.isSome = true)
    (htaken : ∀ pc, lk.taken = some pc → pc = target) (huntaken : ∀ pc, lk.untaken = some pc → pc = next) :
    t2cVisible env cfg lk ir r s = some (s1.cpu.visibleAt (if c then target else next)) := by
  unfold branched at hrun
  rw [truth_bit] at hrun
  cases c with
  | true =>
    rw [t2cVisible_of_run target hrun hcode ?_]
    · exact congrArg some (chained_visibleAt ..)
    · refine nextPc_chained fun hc => ?_
      obtain ⟨pc, hpc⟩ := Option.isSome_iff_exists.mp (htk hc)
      rw [← htaken pc hpc, ← hpc]
      subst hc
      rfl
  | false =>
    rw [t2cVisible_of_run next hrun hcode ?_]
    · exact congrArg some (chained_visibleAt ..)
    · refine nextPc_chained fun hc => ?_
      obtain ⟨pc, hpc⟩ := Option.isSome_iff_exists.mp (hutk hc)
      rw [← huntaken pc hpc, ← hpc]
      subst hc
      cases tk <;> rfl

theorem branch_visible (hext : env.extC = true) (untaken : Word → Word → Bool) :
    ((Code.branch untaken).exec env ir links cycle ir.pc s.cpu).visible env (ir.pc + 4) =
      s.cpu.visibleAt (if untaken (s.cpu.X ir.rs1) (s.cpu.X ir.rs2) then ir.pc + 4 else ir.pc + ir.imm) := by
  have hmis (pc : Word) : insnMisaligned env pc = false := by simp [insnMisaligned, hext]
  simp only [Code.exec, hmis, Bool.false_eq_true, if_false]
  split_ifs <;> rfl

theorem cbranch_visible (untaken : Word → Bool) :
    ((Code.cbranch untaken).exec env ir links cycle ir.pc s.cpu).visible env (ir.pc + 2) =
      s.cpu.visibleAt (if untaken (s.cpu.X ir.rs1) then ir.pc + 2 else ir.pc + ir.imm) := by
  simp only [Code.exec]
  split_ifs
  · rw [chainOr_visible]
    rfl
  · rfl
  · rw [chainOr_visible]
    rfl

end Jumps

/-! ## Traps -/

section Traps

variable {env : Env} {s : Cpu} {c : Bool} {cycle : BitVec 64}

theorem vectorTo_tweak (base mode cause : Word) :
    vectorTo base mode cause (s.tweak c cycle) = (vectorTo base mode cause s).tweak c cycle := by
  unfold vectorTo
  split_ifs <;> rfl

/-- The default handler skips an instruction whose trap is not a misaligned access. -/
theorem trapDefaultHandler_skip (h : s.csr.mcause = Cause.ecallM.code ∨ s.csr.mcause = Cause.breakpoint.code) :
    trapDefaultHandler env s = skipInsn s := by
  have hne : ¬ (s.csr.mcause = Cause.loadMisaligned.code ∨ s.csr.mcause = Cause.storeMisaligned.code) := by
    rcases h with h | h <;> rw [h] <;> decide
  unfold trapDefaultHandler
  rw [if_neg hne]

theorem usesDefaultHandler_iff : s.usesDefaultHandler = true ↔ s.isUOrSMode = false ∧ s.csr.mtvec = 0 := by
  simp [Cpu.usesDefaultHandler]

theorem trapHandler_super (h : s.isUOrSMode = true) :
    trapHandler env s =
      vectorTo (s.csr.stvec &&& ~~~0x3) (s.csr.stvec &&& 0x3) s.csr.scause (enterSupervisor s) :=
  if_pos h

theorem trapHandler_default (h : s.isUOrSMode = false) (hvec : s.csr.mtvec = 0) :
    trapHandler env s = trapDefaultHandler env (enterMachine s) := by
  unfold trapHandler
  rw [h, if_neg Bool.false_ne_true, if_pos hvec]

theorem trapHandler_machine (h : s.isUOrSMode = false) (hvec : s.csr.mtvec ≠ 0) :
    trapHandler env s =
      vectorTo (s.csr.mtvec &&& ~~~0x3) (s.csr.mtvec &&& 0x3) s.csr.mcause (enterMachine s) := by
  unfold trapHandler
  rw [h, if_neg Bool.false_ne_true, if_neg hvec]

/-- A cause that the default handler skips over, in the register of the mode. -/
def Cpu.SkipsCause (s : Cpu) : Prop :=
  s.isUOrSMode = false → s.csr.mcause = Cause.ecallM.code ∨ s.csr.mcause = Cause.breakpoint.code

/-- The trap handler uses `rv->compressed` in the default handler only. -/
theorem trapHandler_tweak (hcause : s.SkipsCause) (h : s.LengthOk c) :
    trapHandler env (s.tweak c cycle) = (trapHandler env s).tweak c cycle := by
  cases hmode : s.isUOrSMode with
  | true =>
    rw [trapHandler_super hmode, trapHandler_super (s := s.tweak c cycle) hmode]
    exact vectorTo_tweak (s := enterSupervisor s) ..
  | false =>
    by_cases hvec : s.csr.mtvec = 0
    · have hlen : s.compressed = c := h (usesDefaultHandler_iff.mpr ⟨hmode, hvec⟩)
      rw [trapHandler_default hmode hvec, trapHandler_default (s := s.tweak c cycle) hmode hvec,
        trapDefaultHandler_skip (s := enterMachine s) (hcause hmode),
        trapDefaultHandler_skip (s := enterMachine (s.tweak c cycle)) (hcause hmode)]
      subst hlen
      rfl
    · rw [trapHandler_machine hmode hvec, trapHandler_machine (s := s.tweak c cycle) hmode hvec]
      exact vectorTo_tweak (s := enterMachine s) ..

theorem setCauseAndTval_tweak (cause : Cause) (tval : Word) :
    setCauseAndTval cause tval (s.tweak c cycle) = (setCauseAndTval cause tval s).tweak c cycle := by
  unfold setCauseAndTval
  rw [show (s.tweak c cycle).isUOrSMode = s.isUOrSMode from rfl]
  split <;> rfl

/-- The cause changes neither the mode nor the vector. -/
theorem setCauseAndTval_mode (cause : Cause) (tval : Word) :
    (setCauseAndTval cause tval s).isUOrSMode = s.isUOrSMode ∧
      (setCauseAndTval cause tval s).csr.mtvec = s.csr.mtvec ∧
      (setCauseAndTval cause tval s).compressed = s.compressed ∧
      (setCauseAndTval cause tval s).PC = s.PC := by
  unfold setCauseAndTval
  split <;> exact ⟨rfl, rfl, rfl, rfl⟩

theorem setCauseAndTval_skips {cause : Cause} (hcause : cause = .ecallM ∨ cause = .breakpoint) (tval : Word) :
    (setCauseAndTval cause tval s).SkipsCause := by
  intro hmode
  rw [(setCauseAndTval_mode cause tval).1] at hmode
  unfold setCauseAndTval
  rw [hmode, if_neg Bool.false_ne_true]
  rcases hcause with rfl | rfl
  · exact .inl rfl
  · exact .inr rfl

theorem raise_tweak {cause : Cause} (hcause : cause = .ecallM ∨ cause = .breakpoint) (tval : Word)
    (h : s.LengthOk c) :
    raise env cause tval (s.tweak c cycle) = (raise env cause tval s).tweak c cycle := by
  obtain ⟨hmode, hvec, hlen, -⟩ := setCauseAndTval_mode (s := s) cause tval
  unfold raise
  rw [setCauseAndTval_tweak]
  refine trapHandler_tweak (setCauseAndTval_skips hcause tval) fun hdef => ?_
  rw [usesDefaultHandler_iff, hmode, hvec] at hdef
  exact hlen.trans (h (usesDefaultHandler_iff.mpr hdef))

theorem raise_pc_default {cause : Cause} (hcause : cause = .ecallM ∨ cause = .breakpoint) (tval : Word)
    (h : s.usesDefaultHandler = true) :
    (raise env cause tval s).PC = s.PC + if s.compressed then 2 else 4 := by
  obtain ⟨hmode, hvec, hlen, hpc⟩ := setCauseAndTval_mode (s := s) cause tval
  obtain ⟨hm, hv⟩ := usesDefaultHandler_iff.mp h
  unfold raise
  rw [trapHandler_default (hmode.trans hm) (hvec.trans hv),
    trapDefaultHandler_skip (s := enterMachine _) (setCauseAndTval_skips hcause tval (hmode.trans hm)),
    ← hlen, ← hpc]
  rfl

/-- `ecall` and `ebreak`. -/
structure Trap.Plain (t : Trap) : Prop where
  cause : t.cause = .ecallM ∨ t.cause = .breakpoint
  after : t.after = .syscall ∨ t.after = .retTrue

theorem Trap.Plain.take_pc {t : Trap} (ht : t.Plain) (henv : env.SyscallLocal) :
    (t.take env s).1.PC = (raise env t.cause t.tval s).PC := by
  unfold Trap.take
  rcases ht.after with h | h <;> rw [h]
  exact henv.pc ..

theorem Trap.Plain.take_tweak {t : Trap} (ht : t.Plain) (henv : env.SyscallLocal) (h : s.LengthOk c) (pc : Word) :
    (t.take env (s.tweak c cycle)).1.visibleAt pc = (t.take env s).1.visibleAt pc := by
  unfold Trap.take
  rw [raise_tweak ht.cause t.tval h]
  generalize raise env t.cause t.tval s = s1
  rcases ht.after with h | h <;> rw [h]
  · have hx := henv.X s1.host s1 c cycle
    have hm := henv.mem s1.host s1 c cycle
    exact congrArg₂ (fun X mem => Visible.mk X mem pc) hx hm
  · rfl

/-- The two ways to take the trap agree exactly if the length is found. -/
theorem Trap.Plain.take_agrees_iff {t : Trap} (ht : t.Plain) (henv : env.SyscallLocal) :
    (t.take env s).1.visibleAt (t.take env s).1.PC =
        (t.take env (s.tweak c cycle)).1.visibleAt (t.take env (s.tweak c cycle)).1.PC ↔ s.LengthOk c := by
  constructor
  · intro h hdef
    have hpc := congrArg Visible.pc h
    simp only [Cpu.visibleAt, ht.take_pc henv] at hpc
    rw [raise_pc_default ht.cause _ hdef,
      raise_pc_default ht.cause _ (show (s.tweak c cycle).usesDefaultHandler = true from hdef)] at hpc
    have hlen : (if s.compressed then (2 : Word) else 4) = if c then 2 else 4 := add_left_cancel hpc
    revert hlen
    cases s.compressed <;> cases c <;> decide
  · intro h
    rw [ht.take_tweak henv h, ht.take_pc henv, ht.take_pc henv, raise_tweak ht.cause _ h]
    rfl

end Traps

/-! ## Code tables -/

section Indirect

variable {env : Env} {mb : BitVec 64} {addr : Word} {s : T2cState}

theorem truth_bit_and (a b : Bool) : truth (bit a &&& bit b) = (a && b) := by
  cases a <;> cases b <;> rfl

/-- A pointer that is not null is the code of a block. -/
theorem isCode_codePtr {o : Option Word} (h : isCode (codePtr o) = true) : ∃ pc, o = some pc := by
  cases o with
  | none => cases h
  | some pc => exact ⟨pc, rfl⟩

theorem fillInlineCache_code (mb : BitVec 64) (s : T2cState) (i key : BitVec 64) (pc : Word) :
    ∃ s', fillInlineCache mb i key (.code pc) s = some s' ∧ s'.cpu = s.cpu := ⟨_, rfl, rfl⟩

theorem setWidth_64_inj {x y : Word} (h : x.setWidth 64 = y.setWidth 64) : x = y := by
  have hn := congrArg BitVec.toNat h
  have hx := x.isLt
  have hy := y.isLt
  rw [BitVec.toNat_setWidth, BitVec.toNat_setWidth] at hn
  apply BitVec.eq_of_toNat_eq
  omega

/-- Whatever the tables hold, execution goes on at `addr`. -/
theorem indirect_spec (env : Env) (mb : BitVec 64) (addr : Word) (hpub : s.Published) (lk : T2cLinks)
    (next : Word) :
    ∃ exit s', indirect env mb addr s = some (exit, s') ∧
      ({} : Handed).nextPc lk next s'.cpu exit = some addr ∧
      ∀ pc, s'.cpu.visibleAt pc = s.cpu.visibleAt pc := by
  have hfound {t : CodeTable} {i : BitVec 64} {pc : Word} (he : (s.tables t i).entry = some pc)
      (hk : ((s.tables t i).key == addr.setWidth 64) = true) : pc = addr := by
    rw [beq_iff_eq, hpub t i pc he] at hk
    exact setWidth_64_inj hk
  unfold indirect
  simp only [truth_bit_and, truth_bit, Bool.and_eq_true]
  split_ifs with hic heven hkey hjc
  · obtain ⟨pc, he⟩ := isCode_codePtr hic.2
    rw [he]
    exact ⟨_, _, rfl, congrArg some (hfound he hic.1), fun _ => rfl⟩
  · obtain ⟨pc, he⟩ := isCode_codePtr hjc.2
    obtain ⟨s1, hs1, hcpu⟩ := fillInlineCache_code mb s (slotIndex addr 0x3ff)
      (addr.setWidth 64) pc
    rw [he]
    refine ⟨.left pc, s1.flush, ?_, congrArg some (hfound he hkey), fun _ => ?_⟩
    · rw [show codePtr (some pc) = .code pc from rfl, hs1]
      rfl
    · rw [← hcpu]
      rfl
  · exact ⟨_, _, rfl, rfl, fun _ => rfl⟩
  · exact ⟨_, _, rfl, rfl, fun _ => rfl⟩
  · exact ⟨_, _, rfl, rfl, fun _ => rfl⟩

/-- A node whose code ends in `t2c_jit_cache_helper`. -/
theorem t2cVisible_indirect {mb : BitVec 64} {chk : Word → Bool} {lk : T2cLinks} {ir : Insn} {r : Regs HostPtr}
    {s1 : T2cState} {code : T2cBuild Handed} (hcode : t2c ⟨false, mb, chk⟩ lk ir = code)
    (hexec : ∃ f, code {} = some ({}, f) ∧ f.exec (t2cHost env mb) r s = indirect env mb addr s1)
    (hpub : s1.Published) :
    t2cVisible env ⟨false, mb, chk⟩ lk ir r s = some (s1.cpu.visibleAt addr) := by
  obtain ⟨f, hf, hrun⟩ := hexec
  obtain ⟨exit, s', hind, hpc, hvis⟩ := indirect_spec env mb addr hpub lk (ir.pc + ir.nodeLen)
  have hx : t2cRun env ⟨false, mb, chk⟩ code r s = some ({}, exit, s') := by
    unfold t2cRun
    rw [hf, Option.bind_some, hrun, hind]
    rfl
  rw [t2cVisible_of_run addr hx hcode hpc, hvis]

end Indirect

end Rv32emu
