import Rv32emu.Llvm
import Rv32emu.Template

/-!
# The tier-2 code generator

The `T2C_OP` handlers of `t2c_template.c` as builder programs over `Llvm`, and the process their code
runs in.

* `HostPtr`, `Gep` : the objects generated code can address: `riscv_t`, the alloca of the instruction
  counter, guest memory by host address, the two tables of published code and the code itself;
* `T2cEnv`, `T2cLinks` : what a handler reads besides its node;
* `t2c` : the dispatch table. A handler returns the builders it hands over through `taken_builder` and
  `untaken_builder`; `__UNREACHABLE` is `failure`;
* `T2cState`, `t2cHost` : memory and functions in a user-mode build.
-/

namespace Rv32emu

open Llvm

/-! ## Pointers -/

/-- The functions in `rv->io` that generated code calls. -/
inductive IoFn
  | onEcall | onEbreak | mmuReadB | mmuReadS | mmuReadW | mmuWriteB | mmuWriteS | mmuWriteW
  deriving DecidableEq

/-- `jit_cache` and `inline_cache`. -/
inductive CodeTable
  | jitCache | inlineCache
  deriving DecidableEq

/-- The fields of `riscv_t` that generated code accesses. -/
inductive RvField
  | X (r : Reg)
  | PC
  | csrCycle
  | csrSatp
  | io (f : IoFn)
  | table (t : CodeTable)
  deriving DecidableEq

/-- The fields of an element of a code table; `inline_cache` has no `seq`. -/
inductive SlotField
  | seq | key | entry
  deriving DecidableEq

/-- The constant indices of `LLVMBuildInBoundsGEP2` and `LLVMBuildStructGEP2`. The pointer arithmetic of
`t2c_gen_call_io_func` is also an index into `riscv_t`. -/
inductive Gep
  | rv (f : RvField)
  | slot (f : SlotField)
  deriving DecidableEq

/-- The objects of the process. `code pc` is the code published for the block at `pc`. -/
inductive HostPtr
  | null
  | rv
  | field (f : RvField)
  | insnCounter
  | host (a : BitVec 64)
  | table (t : CodeTable)
  | slot (t : CodeTable) (i : BitVec 64)
  | slotField (t : CodeTable) (i : BitVec 64) (f : SlotField)
  | fn (f : IoFn)
  | code (pc : Word)
  deriving DecidableEq

abbrev T2cBuild := Build HostPtr Gep
abbrev Value (w : Nat) := Operand HostPtr (.int w)
abbrev Pointer := Operand HostPtr .ptr

/-- `LLVMGetParam(start, 0)`. -/
def rvParam : Pointer := .const .rv

def counterPtr : Pointer := .const .insnCounter

/-! ## What a handler reads and hands over -/

/-- `mem_base`, and `t2c_check_valid_blk(rv, block, pc)` as a function of `pc`. -/
structure T2cEnv where
  system : Bool
  memBase : BitVec 64
  checkValidBlk : Word → Bool

/-- `ir->branch_taken->pc` and `ir->branch_untaken->pc`, where the links are set. -/
structure T2cLinks where
  taken : Option Word := none
  untaken : Option Word := none
  deriving DecidableEq

/-- `*taken_builder` and `*untaken_builder` after a handler. -/
structure Handed where
  taken : Option Builder := none
  untaken : Option Builder := none

/-! ## Building blocks -/

/-- `T2C_LLVM_GEN_ADDR`. -/
def genAddr (b : Builder) (f : RvField) : T2cBuild Pointer := buildGEP b rvParam (.rv f)

/-- `T2C_LLVM_GEN_STORE_IMM32`. -/
def storeImm32 (b : Builder) (v : Word) (p : Pointer) : T2cBuild Unit :=
  buildStore b (constInt v : Value 32) p

/-- `T2C_LLVM_GEN_LOAD_VMREG`. -/
def loadVmreg (b : Builder) (w : Nat) (r : Reg) : T2cBuild (Value w) := do
  buildLoad2 b (.int w) (← genAddr b (.X r))

/-- `LLVMBuildStore` to a register. -/
def storeVmreg (b : Builder) (v : Value 32) (r : Reg) : T2cBuild Unit := do
  buildStore b v (← genAddr b (.X r))

def storeTimer (b : Builder) : T2cBuild Unit := do
  let cyclePtr ← genAddr b .csrCycle
  let cnt ← buildLoad2 b (.int 64) counterPtr
  let _ ← buildAtomicAdd b cyclePtr cnt

/-- A return to the interpreter at `pc`; `addrPc` is the address of `rv->PC`. -/
def leaveAt (b : Builder) (pc : Word) (addrPc : Pointer) : T2cBuild Unit := do
  storeImm32 b pc addrPc
  storeTimer b
  buildRetVoid b

/-- `t2c_gen_mem_loc`, with the base register and the offset. -/
def genMemLoc (env : T2cEnv) (base : Reg) (imm : Word) : T2cBuild Pointer := do
  let val ← buildCast 0 .zext (← loadVmreg 0 32 base) 64
  let addr ← buildBin 0 .add val (constInt (imm.signExtend 64 + env.memBase))
  buildIntToPtr 0 addr

def genCallIoFunc (b : Builder) (f : IoFn) : T2cBuild Unit := do
  let io ← buildLoad2 b .ptr (← genAddr b (.io f))
  let _ ← buildCall2 b (.int 0) io [⟨.ptr, rvParam⟩]

/-! ## Shapes of the handlers

`*builder` stands at block 0. -/

/-- `X[rd] = imm`. -/
def t2cStoreImm (rd : Reg) (imm : Word) : T2cBuild Handed := do
  storeImm32 0 imm (← genAddr 0 (.X rd))
  return {}

/-- `X[rd] = X[rs] op imm`. -/
def t2cAluImm (op : BinOp) (rs rd : Reg) (imm : Word) : T2cBuild Handed := do
  let val ← loadVmreg 0 32 rs
  let res ← buildBin 0 op val (constInt imm)
  storeVmreg 0 res rd
  return {}

/-- `X[rd] = X[rs1] op X[rs2]`. -/
def t2cAlu (op : BinOp) (ir : Insn) : T2cBuild Handed := do
  let val1 ← loadVmreg 0 32 ir.rs1
  let val2 ← loadVmreg 0 32 ir.rs2
  let res ← buildBin 0 op val1 val2
  storeVmreg 0 res ir.rd
  return {}

/-- A shift by the low five bits of `X[rs2]`. -/
def t2cShift (op : BinOp) (ir : Insn) : T2cBuild Handed := do
  let val1 ← loadVmreg 0 32 ir.rs1
  let val2 ← loadVmreg 0 32 ir.rs2
  let val2 ← buildBin 0 .and val2 (constInt 0x1f)
  let res ← buildBin 0 op val1 val2
  storeVmreg 0 res ir.rd
  return {}

/-- The address of `rd` is taken before the operands are loaded. -/
def t2cSet (p : Pred) (ir : Insn) (operand : T2cBuild (Value 32)) : T2cBuild Handed := do
  let addrRd ← genAddr 0 (.X ir.rd)
  let val1 ← loadVmreg 0 32 ir.rs1
  let cmp ← buildICmp 0 p val1 (← operand)
  let res ← buildSelect 0 cmp (constInt 1 : Value 32) (constInt 0)
  buildStore 0 res addrRd
  return {}

/-- A 64-bit product of the extended operands; `part` selects half of it. -/
def t2cMul (ext1 ext2 : CastOp) (part : BinOp × BitVec 64) (ir : Insn) : T2cBuild Handed := do
  let val1 ← loadVmreg 0 32 ir.rs1
  let val2 ← loadVmreg 0 32 ir.rs2
  let val1 ← buildCast 0 ext1 val1 64
  let val2 ← buildCast 0 ext2 val2 64
  let res ← buildBin 0 .mul val1 val2
  let res ← buildBin 0 part.1 res (constInt part.2)
  let res ← buildCast 0 .trunc res 32
  storeVmreg 0 res ir.rd
  return {}

/-- `X[rd]` or `X[rs1]` is updated in place. -/
def t2cUpdate (op : BinOp) (r : Reg) (imm : Word) : T2cBuild Handed := do
  let addr ← genAddr 0 (.X r)
  let val ← buildLoad2 0 (.int 32) addr
  let res ← buildBin 0 op val (constInt imm)
  buildStore 0 res addr
  return {}

/-- A link that is set and, where the handler asks, names a valid block. -/
def T2cEnv.valid (env : T2cEnv) (link : Option Word) : Bool := link.any env.checkValidBlk

/-- A direct jump; `chain` says that the link is followed. -/
def t2cJump (chain : Bool) (target : Word) : T2cBuild Handed := do
  if chain then return { taken := some 0 }
  else
    leaveAt 0 target (← genAddr 0 .PC)
    return {}

/-- The block behind a conditional branch, with the builder if it is handed over. -/
def t2cArm (chain : Bool) (pc : Word) (addrPc : Pointer) : T2cBuild (Builder × Option Builder) := do
  let b ← appendBasicBlock
  if chain then return (b, some b)
  else
    leaveAt b pc addrPc
    return (b, none)

/-- The two blocks behind a conditional branch. -/
def t2cBranch (chainTaken chainUntaken : Bool) (target next : Word) (addrPc : Pointer) (cmp : Value 1) :
    T2cBuild Handed := do
  let (taken, tk) ← t2cArm chainTaken target addrPc
  let (untaken, utk) ← t2cArm chainUntaken next addrPc
  buildCondBr 0 cmp taken untaken
  return { taken := tk, untaken := utk }

def t2cBranchFunc (env : T2cEnv) (lk : T2cLinks) (p : Pred) (ir : Insn) : T2cBuild Handed := do
  let addrPc ← genAddr 0 .PC
  let val1 ← loadVmreg 0 32 ir.rs1
  let val2 ← loadVmreg 0 32 ir.rs2
  let cmp ← buildICmp 0 p val1 val2
  t2cBranch (env.valid lk.taken) (env.valid lk.untaken) (ir.pc + ir.imm) (ir.pc + 4) addrPc cmp

/-- `c.beqz` and `c.bnez` do not ask whether the linked block is valid. -/
def t2cCBranch (lk : T2cLinks) (p : Pred) (ir : Insn) : T2cBuild Handed := do
  let addrPc ← genAddr 0 .PC
  let val1 ← loadVmreg 0 32 ir.rs1
  let cmp ← buildICmp 0 p val1 (constInt 0)
  t2cBranch lk.taken.isSome lk.untaken.isSome (ir.pc + ir.imm) (ir.pc + 2) addrPc cmp

/-- `rv->PC = pc`, a call of `on_ecall` or `on_ebreak`, and a return. -/
def t2cTrap (f : IoFn) (pc : Word) : T2cBuild Handed := do
  storeImm32 0 pc (← genAddr 0 .PC)
  genCallIoFunc 0 f
  storeTimer 0
  buildRetVoid 0
  return {}

/-! ## Memory accesses -/

/-- `LLVMBuildSExt` or `LLVMBuildZExt` of what was loaded; a word is not extended. -/
def extendLoad (w : Nat) (ext : CastOp) (v : Value w) : T2cBuild (Value 32) :=
  if h : w = 32 then pure (h ▸ v) else buildCast 0 ext v 32

/-- `T2C_MMU_LOAD`; `imm` is added in 32 bits. -/
def t2cMmuLoad (f : IoFn) (w : Nat) (ext : CastOp) (base rd : Reg) (imm : Word) : T2cBuild Handed := do
  let val ← loadVmreg 0 32 base
  let vaddr ← buildBin 0 .add val (constInt imm)
  let fn ← buildLoad2 0 .ptr (← genAddr 0 (.io f))
  let ret ← buildCall2 0 (.int w) fn [⟨.ptr, rvParam⟩, ⟨.int 32, vaddr⟩]
  let ret ← extendLoad w ext ret
  storeVmreg 0 ret rd
  return {}

def t2cMmuStore (f : IoFn) (w : Nat) (base rs2 : Reg) (imm : Word) : T2cBuild Handed := do
  let val ← loadVmreg 0 32 base
  let vaddr ← buildBin 0 .add val (constInt imm)
  let fn ← buildLoad2 0 .ptr (← genAddr 0 (.io f))
  let val2 ← loadVmreg 0 w rs2
  let _ ← buildCall2 0 (.int 0) fn [⟨.ptr, rvParam⟩, ⟨.int 32, vaddr⟩, ⟨.int w, val2⟩]
  return {}

/-- A load; `f` is the function a `SYSTEM` build calls. -/
def t2cLoad (env : T2cEnv) (f : IoFn) (w : Nat) (ext : CastOp) (base rd : Reg) (imm : Word) :
    T2cBuild Handed := do
  if env.system then t2cMmuLoad f w ext base rd imm
  else
    let memLoc ← genMemLoc env base imm
    let res ← buildLoad2 0 (.int w) memLoc
    let res ← extendLoad w ext res
    storeVmreg 0 res rd
    return {}

def t2cStore (env : T2cEnv) (f : IoFn) (w : Nat) (base rs2 : Reg) (imm : Word) : T2cBuild Handed := do
  if env.system then t2cMmuStore f w base rs2 imm
  else
    let memLoc ← genMemLoc env base imm
    let val2 ← loadVmreg 0 w rs2
    buildStore 0 val2 memLoc
    return {}

/-- `c.swsp` loads the value before it computes the address. -/
def t2cCswsp (env : T2cEnv) (ir : Insn) : T2cBuild Handed := do
  if env.system then t2cMmuStore .mmuWriteW 32 regSp ir.rs2 ir.imm
  else
    let addrRs2 ← genAddr 0 (.X ir.rs2)
    let valSp ← buildCast 0 .zext (← loadVmreg 0 32 regSp) 64
    let val2 ← buildLoad2 0 (.int 32) addrRs2
    let addr ← buildBin 0 .add valSp (constInt (ir.imm.signExtend 64 + env.memBase))
    buildStore 0 val2 (← buildIntToPtr 0 addr)
    return {}

/-! ## Indirect jumps -/

def expectedKey (env : T2cEnv) (addr satp : Value 32) : T2cBuild (Value 64) := do
  if env.system then
    let addr64 ← buildCast 0 .zext addr 64
    let satp64 ← buildCast 0 .zext satp 64
    let shifted ← buildBin 0 .shl satp64 (constInt 32)
    buildBin 0 .add addr64 shifted
  else buildCast 0 .zext addr 64

/-- The index of an element: `(addr ^ addr >> 12 [^ satp]) & mask`. -/
def tableIndex (env : T2cEnv) (b : Builder) (addr satp : Value 32) (mask : Word) : T2cBuild (Value 64) := do
  let high ← buildBin b .lshr addr (constInt 12)
  let mixed ← buildBin b .xor addr high
  let mixed ← if env.system then buildBin b .xor mixed satp else pure mixed
  let hash ← buildBin b .and mixed (constInt mask)
  buildCast b .zext hash 64

/-- A call of published code in tail position. -/
def callCode (b : Builder) (entry : Pointer) : T2cBuild Unit := do
  storeTimer b
  let _ ← buildCall2 b (.int 0) entry [⟨.ptr, rvParam⟩]
  buildRetVoid b

/-- `t2c_jit_cache_helper`: the inline cache, the seqlock of `jit_cache`, and a return to the interpreter. -/
def t2cJitCacheHelper (env : T2cEnv) (addr : Value 32) : T2cBuild Handed := do
  let satp : Value 32 ←
    if env.system then buildLoad2 0 (.int 32) (← genAddr 0 .csrSatp) else pure (constInt 0)
  let key ← expectedKey env addr satp
  let icBase ← buildLoad2 0 .ptr (← genAddr 0 (.table .inlineCache))
  let icElem ← buildElem 0 icBase (← tableIndex env 0 addr satp 0x3ff)
  let icKeyPtr ← buildGEP 0 icElem (.slot .key)
  let icKey ← buildLoad2 0 (.int 64) icKeyPtr
  let icEntryPtr ← buildGEP 0 icElem (.slot .entry)
  let icEntry ← buildLoad2 0 .ptr icEntryPtr
  let keyMatch ← buildICmp 0 .eq icKey key
  let entryValid ← buildIsNotNull 0 icEntry
  let icHit ← buildBin 0 .and keyMatch entryValid
  let hit ← appendBasicBlock
  let miss ← appendBasicBlock
  buildCondBr 0 icHit hit miss
  callCode hit icEntry
  let seqEven ← appendBasicBlock
  let match_ ← appendBasicBlock
  let callJit ← appendBasicBlock
  let fallback ← appendBasicBlock
  let base ← buildLoad2 miss .ptr (← genAddr miss (.table .jitCache))
  let elem ← buildElem miss base (← tableIndex env miss addr satp 0xfff)
  let seqPtr ← buildGEP miss elem (.slot .seq)
  let seq1 ← buildLoad2 miss (.int 32) seqPtr
  let odd ← buildBin miss .and seq1 (constInt 1)
  let isEven ← buildICmp miss .eq odd (constInt 0)
  buildCondBr miss isEven seqEven fallback
  let jcKey ← buildLoad2 seqEven (.int 64) (← buildGEP seqEven elem (.slot .key))
  let jcKeyCmp ← buildICmp seqEven .eq jcKey key
  buildCondBr seqEven jcKeyCmp match_ fallback
  let entry ← buildLoad2 match_ .ptr (← buildGEP match_ elem (.slot .entry))
  let seq2 ← buildLoad2 match_ (.int 32) seqPtr
  let seqCmp ← buildICmp match_ .eq seq1 seq2
  let notNull ← buildIsNotNull match_ entry
  let valid ← buildBin match_ .and seqCmp notNull
  buildCondBr match_ valid callJit fallback
  buildStore callJit key icKeyPtr
  buildStore callJit entry icEntryPtr
  callCode callJit entry
  buildStore fallback addr (← genAddr fallback .PC)
  storeTimer fallback
  buildRetVoid fallback
  return {}

/-- `if (ir->rd)` the address of the next instruction is stored there. -/
def storeLink (rd : Reg) (pc : Word) : T2cBuild Unit :=
  if rd = 0 then pure () else do storeImm32 0 pc (← genAddr 0 (.X rd))

/-- `jalr` loads the base before it writes the link register. -/
def t2cJalr (env : T2cEnv) (ir : Insn) : T2cBuild Handed := do
  let val ← loadVmreg 0 32 ir.rs1
  let val ← buildBin 0 .add val (constInt ir.imm)
  let val ← buildBin 0 .and val (constInt (~~~(1 : Word)))
  storeLink ir.rd (ir.pc + 4)
  t2cJitCacheHelper env val

def t2cCjr (env : T2cEnv) (ir : Insn) : T2cBuild Handed := do
  t2cJitCacheHelper env (← loadVmreg 0 32 ir.rs1)

def t2cCjalr (env : T2cEnv) (ir : Insn) : T2cBuild Handed := do
  let val ← loadVmreg 0 32 ir.rs1
  storeImm32 0 (ir.pc + 2) (← genAddr 0 (.X regRa))
  t2cJitCacheHelper env val

/-! ## The dispatch table -/

/-- `T2C_OP(inst, code)`: the instruction is counted. -/
def t2cOp (code : T2cBuild Handed) : T2cBuild Handed := do
  let cnt ← buildLoad2 0 (.int 64) counterPtr
  let cnt ← buildBin 0 .add cnt (constInt 1)
  buildStore 0 cnt counterPtr
  code

def t2cCode (env : T2cEnv) (lk : T2cLinks) (ir : Insn) : T2cBuild Handed :=
  match ir.opcode with
  | .nop | .cnop => return {}
  | .lui | .cli | .clui => t2cStoreImm ir.rd ir.imm
  | .auipc => t2cStoreImm ir.rd (ir.pc + ir.imm)
  | .jal => do
    storeLink ir.rd (ir.pc + 4)
    t2cJump (env.valid lk.taken) (ir.pc + ir.imm)
  | .jalr => t2cJalr env ir
  | .beq => t2cBranchFunc env lk .eq ir
  | .bne => t2cBranchFunc env lk .ne ir
  | .blt => t2cBranchFunc env lk .slt ir
  | .bge => t2cBranchFunc env lk .sge ir
  | .bltu => t2cBranchFunc env lk .ult ir
  | .bgeu => t2cBranchFunc env lk .uge ir
  | .lb => t2cLoad env .mmuReadB 8 .sext ir.rs1 ir.rd ir.imm
  | .lh => t2cLoad env .mmuReadS 16 .sext ir.rs1 ir.rd ir.imm
  | .lw | .clw => t2cLoad env .mmuReadW 32 .sext ir.rs1 ir.rd ir.imm
  | .lbu => t2cLoad env .mmuReadB 8 .zext ir.rs1 ir.rd ir.imm
  | .lhu => t2cLoad env .mmuReadS 16 .zext ir.rs1 ir.rd ir.imm
  | .sb => t2cStore env .mmuWriteB 8 ir.rs1 ir.rs2 ir.imm
  | .sh => t2cStore env .mmuWriteS 16 ir.rs1 ir.rs2 ir.imm
  | .sw | .csw => t2cStore env .mmuWriteW 32 ir.rs1 ir.rs2 ir.imm
  | .addi => t2cAluImm .add ir.rs1 ir.rd ir.imm
  | .slti => t2cSet .slt ir (pure (constInt ir.imm))
  | .sltiu => t2cSet .ult ir (pure (constInt ir.imm))
  | .xori => t2cAluImm .xor ir.rs1 ir.rd ir.imm
  | .ori => t2cAluImm .or ir.rs1 ir.rd ir.imm
  | .andi => t2cAluImm .and ir.rs1 ir.rd ir.imm
  | .slli => t2cAluImm .shl ir.rs1 ir.rd (ir.imm &&& 0x1f)
  | .srli => t2cAluImm .lshr ir.rs1 ir.rd (ir.imm &&& 0x1f)
  | .srai => t2cAluImm .ashr ir.rs1 ir.rd (ir.imm &&& 0x1f)
  | .add | .cadd => t2cAlu .add ir
  | .sub | .csub => t2cAlu .sub ir
  | .sll => t2cShift .shl ir
  | .slt => t2cSet .slt ir (loadVmreg 0 32 ir.rs2)
  | .sltu => t2cSet .ult ir (loadVmreg 0 32 ir.rs2)
  | .xor | .cxor => t2cAlu .xor ir
  | .srl => t2cShift .lshr ir
  | .sra => t2cShift .ashr ir
  | .or | .cor => t2cAlu .or ir
  | .and | .cand => t2cAlu .and ir
  | .ecall => t2cTrap .onEcall ir.pc
  | .ebreak | .cebreak => t2cTrap .onEbreak ir.pc
  | .mul => t2cMul .sext .sext (.and, 0xffffffff) ir
  | .mulh => t2cMul .sext .sext (.lshr, 32) ir
  | .mulhsu => t2cMul .sext .zext (.lshr, 32) ir
  | .mulhu => t2cMul .zext .zext (.lshr, 32) ir
  | .div => t2cAlu .sdiv ir
  | .divu => t2cAlu .udiv ir
  | .rem => t2cAlu .srem ir
  | .remu => t2cAlu .urem ir
  | .caddi4spn => t2cAluImm .add regSp ir.rd ((ir.imm.setWidth 16).signExtend 32)
  | .caddi => t2cUpdate .add ir.rd ((ir.imm.setWidth 16).signExtend 32)
  | .cjal => do
    storeImm32 0 (ir.pc + 2) (← genAddr 0 (.X regRa))
    t2cJump lk.taken.isSome (ir.pc + ir.imm)
  | .caddi16sp => t2cUpdate .add ir.rd ir.imm
  | .csrli => t2cUpdate .lshr ir.rs1 (ir.shamt.setWidth 32)
  | .csrai => t2cUpdate .ashr ir.rs1 (ir.shamt.setWidth 32)
  | .candi => t2cUpdate .and ir.rs1 ir.imm
  | .cj => t2cJump lk.taken.isSome (ir.pc + ir.imm)
  | .cbeqz => t2cCBranch lk .eq ir
  | .cbnez => t2cCBranch lk .ne ir
  | .cslli => t2cUpdate .shl ir.rd ((ir.imm.setWidth 8).setWidth 32)
  | .clwsp => t2cLoad env .mmuReadW 32 .sext regSp ir.rd ir.imm
  | .cjr => t2cCjr env ir
  | .cmv => do
    let val2 ← loadVmreg 0 32 ir.rs2
    storeVmreg 0 val2 ir.rd
    return {}
  | .cjalr => t2cCjalr env ir
  | .cswsp => t2cCswsp env ir
  | _ => failure

/-! ## Fused handlers -/

/-- `for (i = 0; i < ir->imm2; i++)` over the fuse slots. -/
def forFuse (body : OpcodeFuse → T2cBuild Handed) : List OpcodeFuse → T2cBuild Handed
  | [] => return {}
  | f :: rest => do
    let _ ← body f
    forFuse body rest

def Insn.fused (ir : Insn) : List OpcodeFuse := ir.fuse.take ir.imm2.toNat

/-- `fuse5` calls the handlers of the three shifts. -/
def t2cFuseShift (f : OpcodeFuse) : T2cBuild Handed :=
  match f.opcode with
  | .slli => t2cOp (t2cAluImm .shl f.rs1 f.rd (f.imm &&& 0x1f))
  | .srli => t2cOp (t2cAluImm .lshr f.rs1 f.rd (f.imm &&& 0x1f))
  | .srai => t2cOp (t2cAluImm .ashr f.rs1 f.rd (f.imm &&& 0x1f))
  | _ => failure

/-- `lui` and `add`. -/
def t2cFuse2 (ir : Insn) : T2cBuild Handed := do
  let addrRd ← genAddr 0 (.X ir.rd)
  storeImm32 0 ir.imm addrRd
  let val1 ← loadVmreg 0 32 ir.rs1
  let valRd ← buildLoad2 0 (.int 32) addrRd
  let res ← buildBin 0 .add val1 valRd
  storeVmreg 0 res ir.rs2
  return {}

/-- `li a7, imm` and `ecall`. -/
def t2cFuse6 (ir : Insn) : T2cBuild Handed := do
  storeImm32 0 ir.imm (← genAddr 0 (.X regA7))
  t2cTrap .onEcall (ir.pc + 4)

/-- `lui` and `lw`: the loaded word goes to `rs2`. -/
def t2cFuse9 (env : T2cEnv) (ir : Insn) : T2cBuild Handed := do
  let addr := ir.imm + ir.imm2
  if env.system then
    let fn ← buildLoad2 0 .ptr (← genAddr 0 (.io .mmuReadW))
    let ret ← buildCall2 0 (.int 32) fn [⟨.ptr, rvParam⟩, ⟨.int 32, constInt addr⟩]
    storeVmreg 0 ret ir.rs2
    return {}
  else
    let loc ← buildIntToPtr 0 (constInt (addr.setWidth 64 + env.memBase))
    let res ← buildLoad2 0 (.int 32) loc
    storeVmreg 0 res ir.rs2
    return {}

/-- `lui` and `sw`: the stored word comes from `rs1`. -/
def t2cFuse10 (env : T2cEnv) (ir : Insn) : T2cBuild Handed := do
  let addr := ir.imm + ir.imm2
  if env.system then
    let fn ← buildLoad2 0 .ptr (← genAddr 0 (.io .mmuWriteW))
    let val1 ← loadVmreg 0 32 ir.rs1
    let _ ← buildCall2 0 (.int 0) fn [⟨.ptr, rvParam⟩, ⟨.int 32, constInt addr⟩, ⟨.int 32, val1⟩]
    return {}
  else
    let loc ← buildIntToPtr 0 (constInt (addr.setWidth 64 + env.memBase))
    let val1 ← loadVmreg 0 32 ir.rs1
    buildStore 0 val1 loc
    return {}

/-- `lw` and the post-increment of its base. -/
def t2cFuse11 (env : T2cEnv) (ir : Insn) : T2cBuild Handed := do
  let addrRs1 ← genAddr 0 (.X ir.rs1)
  let val1 ← buildLoad2 0 (.int 32) addrRs1
  if env.system then
    let vaddr ← buildBin 0 .add val1 (constInt ir.imm)
    let fn ← buildLoad2 0 .ptr (← genAddr 0 (.io .mmuReadW))
    let ret ← buildCall2 0 (.int 32) fn [⟨.ptr, rvParam⟩, ⟨.int 32, vaddr⟩]
    storeVmreg 0 ret ir.rd
  else
    let memLoc ← genMemLoc env ir.rs1 ir.imm
    let res ← buildLoad2 0 (.int 32) memLoc
    storeVmreg 0 res ir.rd
  let inc ← buildBin 0 .add val1 (constInt ir.imm2)
  buildStore 0 inc addrRs1
  return {}

/-- `addi` and `bne rd, x0`. -/
def t2cFuse12 (env : T2cEnv) (lk : T2cLinks) (ir : Insn) : T2cBuild Handed := do
  let addrPc ← genAddr 0 .PC
  let val1 ← loadVmreg 0 32 ir.rs1
  let res ← buildBin 0 .add val1 (constInt ir.imm)
  storeVmreg 0 res ir.rd
  let cmp ← buildICmp 0 .ne res (constInt 0)
  t2cBranch (env.valid lk.taken) (env.valid lk.untaken) (ir.pc + 4 + ir.imm2) (ir.pc + 8) addrPc cmp

/-- `dispatch_table`. -/
def t2c (env : T2cEnv) (lk : T2cLinks) (ir : Insn) : T2cBuild Handed :=
  t2cOp <| match ir.opcode with
  | .fuse1 => forFuse (fun f => t2cStoreImm f.rd f.imm) ir.fused
  | .fuse2 => t2cFuse2 ir
  | .fuse3 => forFuse (fun f => t2cStore env .mmuWriteW 32 f.rs1 f.rs2 f.imm) ir.fused
  | .fuse4 => forFuse (fun f => t2cLoad env .mmuReadW 32 .sext f.rs1 f.rd f.imm) ir.fused
  | .fuse5 => forFuse t2cFuseShift ir.fused
  | .fuse6 => t2cFuse6 ir
  | .fuse7 => forFuse (fun f => t2cAluImm .add f.rs1 f.rd f.imm) ir.fused
  | .fuse8 => t2cStoreImm ir.rd (ir.imm + ir.imm2)
  | .fuse9 => t2cFuse9 env ir
  | .fuse10 => t2cFuse10 env ir
  | .fuse11 => t2cFuse11 env ir
  | .fuse12 => t2cFuse12 env lk ir
  | _ => t2cCode env lk ir

/-! ## The process of a user-mode build -/

/-- An element of a code table; an entry that is not null is the code of the block at the given address. -/
structure CodeSlot where
  seq : Word := 0
  key : BitVec 64 := 0
  entry : Option Word := none
  deriving DecidableEq

/-- The machine, the alloca of the counter and the two tables. -/
structure T2cState where
  cpu : Cpu
  insnCounter : BitVec 64
  tables : CodeTable → BitVec 64 → CodeSlot

namespace T2cState

def setSlot (s : T2cState) (t : CodeTable) (i : BitVec 64) (c : CodeSlot) : T2cState :=
  { s with tables := Function.update s.tables t (Function.update (s.tables t) i c) }

end T2cState

def codePtr : Option Word → HostPtr
  | some pc => .code pc
  | none => .null

/-- The offset into guest memory of the `w / 8` bytes at a host address. An access of LLVM outside the
object or below the alignment of its type is undefined; `mem_base` is aligned. -/
def guestOffset (memBase : BitVec 64) (w : Nat) (a : BitVec 64) : Option (BitVec 64) :=
  let off := a - memBase
  if off.toNat < 2 ^ 32 ∧ off.toNat % (w / 8) = 0 then some off else none

def t2cLoadPtr (memBase : BitVec 64) (t : Ty) (p : HostPtr) (s : T2cState) : Option (t.Val HostPtr) :=
  match t, p with
  | .int 8, .field (.X r) => some (BitVec.setWidth 8 (s.cpu.X r))
  | .int 16, .field (.X r) => some (BitVec.setWidth 16 (s.cpu.X r))
  | .int 32, .field (.X r) => some (s.cpu.X r)
  | .int 32, .field .PC => some s.cpu.PC
  | .int 32, .field .csrSatp => some s.cpu.csr.satp
  | .int 64, .field .csrCycle => some s.cpu.csr.cycle
  | .ptr, .field (.io f) => some (HostPtr.fn f)
  | .ptr, .field (.table t) => some (HostPtr.table t)
  | .int 64, .insnCounter => some s.insnCounter
  | .int 8, .host a => (guestOffset memBase 8 a).map s.cpu.mem.readB
  | .int 16, .host a => (guestOffset memBase 16 a).map s.cpu.mem.readS
  | .int 32, .host a => (guestOffset memBase 32 a).map s.cpu.mem.readW
  | .int 32, .slotField t i .seq => some (s.tables t i).seq
  | .int 64, .slotField t i .key => some (s.tables t i).key
  | .ptr, .slotField t i .entry => some (codePtr (s.tables t i).entry)
  | _, _ => none

/-- Guest memory after `write`. -/
def T2cState.withMem (s : T2cState) (mem : Mem) : T2cState := { s with cpu := { s.cpu with mem } }

def t2cStorePtr (memBase : BitVec 64) (t : Ty) (p : HostPtr) (v : t.Val HostPtr) (s : T2cState) :
    Option T2cState :=
  match t, p, v with
  | .int 32, .field (.X r), v => some { s with cpu := s.cpu.setX r v }
  | .int 32, .field .PC, v => some { s with cpu := { s.cpu with PC := v } }
  | .int 64, .field .csrCycle, v => some { s with cpu := { s.cpu with csr := { s.cpu.csr with cycle := v } } }
  | .int 64, .insnCounter, v => some { s with insnCounter := v }
  | .int 8, .host a, v => (guestOffset memBase 8 a).map fun off => s.withMem (s.cpu.mem.writeB off v)
  | .int 16, .host a, v => (guestOffset memBase 16 a).map fun off => s.withMem (s.cpu.mem.writeS off v)
  | .int 32, .host a, v => (guestOffset memBase 32 a).map fun off => s.withMem (s.cpu.mem.writeW off v)
  | .int 64, .slotField t i .key, v => some (s.setSlot t i { s.tables t i with key := v })
  | .ptr, .slotField t i .entry, .code pc => some (s.setSlot t i { s.tables t i with entry := some pc })
  | _, _, _ => none

/-- `ecall_handler` and `ebreak_handler`. -/
def ioTrap (env : Env) (f : IoFn) (s : Cpu) : Option Cpu :=
  match f with
  | .onEcall => some (Trap.take env ⟨.ecallM, 0, .syscall⟩ s).1
  | .onEbreak => some (Trap.take env ⟨.breakpoint, s.PC, .retTrue⟩ s).1
  | _ => none

/-- Published code takes over at its block; the callbacks of `rv->io` return. -/
def t2cCall (env : Env) (t : Ty) (f : HostPtr) (s : T2cState) :
    Option (Returned (t.Val HostPtr) T2cState Word) :=
  match t, f with
  | .int 0, .fn f => (ioTrap env f s.cpu).map fun cpu => .returns (0 : BitVec 0) { s with cpu }
  | .int 0, .code pc => some (.leaves pc s)
  | _, _ => none

def gepPtr (p : HostPtr) (g : Gep) : HostPtr :=
  match p, g with
  | .rv, .rv f => .field f
  | .slot t i, .slot f => .slotField t i f
  | _, _ => .null

def elemPtr (p : HostPtr) (i : BitVec 64) : HostPtr :=
  match p with
  | .table t => .slot t i
  | _ => .null

/-- The process in which tier-2 code of a user-mode build runs. -/
def t2cHost (env : Env) (memBase : BitVec 64) : Llvm.Host HostPtr Gep T2cState Word where
  gep := gepPtr
  elem := elemPtr
  ofInt := .host
  isNull p := p = .null
  load := t2cLoadPtr memBase
  store := t2cStorePtr memBase
  call t f _ := t2cCall env t f

end Rv32emu
