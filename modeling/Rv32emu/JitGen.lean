import Rv32emu.JitDivMod
import Rv32emu.JitEmit

/-!
# The generators of `rv32_jit.c`

What the handlers of the user-mode build emit on an x86-64 host, `translate`, and the jumps that a block ends in.
Where the code lies in the buffer and how the jumps are resolved is the subject of `JitEmit`; here a jump to another
block goes there if that block has code.

* `aluImm`, `aluReg`, `sltImm`, `load`, `store`, … : the macros, by the registers and the immediate they use;
* `gen` : the handlers that go on with the next node; `genTail` : those that leave the block;
* `translate` : one block, for any table of live registers and any queue of candidates.
-/

namespace Rv32emu.Tier1

open X64 (Emitter Ending)
open X64.Emitter (emit)

/-! ## The macros -/

section Macros

variable (queue : List Reg)

def aluImm (op : X64.Alu) (rs1 rd : Reg) (imm : Word) : Gen Unit := do
  let v0 ← raLoad queue rs1
  let v1 ← mapVmRegReserved queue rd v0
  if v0 ≠ v1 then emitMov v0 v1
  emitAlu32Imm32 op v1 imm

def shiftImm (op : X64.Shift) (rs1 rd : Reg) (imm : Word) : Gen Unit := do
  let v0 ← raLoad queue rs1
  let v1 ← mapVmRegReserved queue rd v0
  if v0 ≠ v1 then emitMov v0 v1
  emitShiftImm8 op v1 ((imm &&& 0x1f).setWidth 8)

/-- What the macros with two source registers start with: the operands in the temporary register and that of rd. -/
def operands (rs1 rs2 rd : Reg) : Gen X64.Reg := do
  let (v0, v1) ← raLoad2 queue rs1 rs2
  let v2 ← mapVmRegReserved2 queue rd v0 v1
  emitMov v1 tempReg
  emitMov v0 v2
  return v2

def aluReg (op : X64.Alu) (rs1 rs2 rd : Reg) : Gen Unit := do
  let v2 ← operands queue rs1 rs2 rd
  emitAlu32 op tempReg v2

def shiftReg (op : X64.Shift) (rs1 rs2 rd : Reg) : Gen Unit := do
  let v2 ← operands queue rs1 rs2 rd
  emitAlu32Imm32 .and tempReg 0x1f
  emitShiftCl op v2

/-- What `GEN_SLT_IMM` and `GEN_SLT_REG` end with. -/
def setCond (c : X64.Cond) (v : X64.Reg) : Gen Unit := do
  emitLoadImm v 1
  Emitter.skip c (emitLoadImm v 0)

def sltImm (c : X64.Cond) (rs1 rd : Reg) (imm : Word) : Gen Unit := do
  let v0 ← raLoad queue rs1
  emitCmpImm32 v0 imm
  let v1 ← mapVmRegReserved queue rd v0
  setCond c v1

def sltReg (c : X64.Cond) (rs1 rs2 rd : Reg) : Gen Unit := do
  let (v0, v1) ← raLoad2 queue rs1 rs2
  let v2 ← mapVmRegReserved2 queue rd v0 v1
  emitCmp32 v1 v0
  setCond c v2

def loadConst (rd : Reg) (imm : Word) : Gen Unit := do
  let v0 ← mapVmReg queue rd
  emitLoadImm v0 imm

/-- `caddi` and the others with one register, which they change in place. -/
def aluInPlace (op : X64.Alu) (r : Reg) (imm : Word) : Gen Unit := do
  let v0 ← raLoad queue r
  emitAlu32Imm32 op v0 imm

/-- `csrli`, `csrai` and `cslli`. -/
def shiftInPlace (op : X64.Shift) (r : Reg) (n : BitVec 8) : Gen Unit := do
  let v0 ← raLoad queue r
  emitShiftImm8 op v0 n

/-- `cmv`. -/
def move (rs2 rd : Reg) : Gen Unit := do
  let v0 ← raLoad queue rs2
  let v1 ← mapVmRegReserved queue rd v0
  if v0 ≠ v1 then emitMov v0 v1 else setDirty v1 true

/-- `mul`, `divu` and `remu`. -/
def mulDiv (op : MulDiv) (rs1 rs2 rd : Reg) : Gen Unit := do
  let (v0, v1) ← raLoad2 queue rs1 rs2
  let v2 ← mapVmRegReserved2 queue rd v0 v1
  genMulDiv op false v0 v1 v2

/-- `mulhu`. -/
def mulHigh (rs1 rs2 rd : Reg) : Gen Unit := do
  let (v0, v1) ← raLoad2 queue rs1 rs2
  let v2 ← mapVmRegReserved2 queue rd v0 v1
  genMulDiv .mul64 false v0 v1 v2
  emitShr64Imm8 v2 32

/-- `mulh` and `mulhsu`. -/
def mulHighSext (rs1 rs2 rd : Reg) (sext1 sext2 : Bool) : Gen Unit := do
  let (v0, v1) ← raLoad2Sext queue rs1 rs2 sext1 sext2
  let v2 ← mapVmRegReserved2 queue rd v0 v1
  genMulDiv .mul64 false v0 v1 v2
  emitShr64Imm8 v2 32

def divRem (op : MulDiv) (rs1 rs2 rd : Reg) : Gen Unit := do
  let (v0, v1) ← raLoad2Sext queue rs1 rs2 true true
  let v2 ← mapVmRegReserved2 queue rd v0 v1
  genMulDiv op true v0 v1 v2

/-! ## Memory, in the user-mode build -/

variable (memBase : BitVec 64)

/-- `mem_base + imm + X[rs1]` in the temporary register. -/
def address (rs1 : Reg) (imm : Word) : Gen Unit := do
  let v0 ← raLoad queue rs1
  emitLoadImmSext tempReg (memBase + imm.signExtend 64)
  emitAdd64 v0 tempReg

/-- `GEN_LOAD`; `sext` for `emit_load_sext`. -/
def load (size : X64.Width) (sext : Bool) (rs1 rd : Reg) (imm : Word) : Gen Unit := do
  address queue memBase rs1 imm
  let v1 ← mapVmReg queue rd
  emitLoadAs sext size tempReg v1 0

def store (size : X64.Width) (rs1 rs2 : Reg) (imm : Word) : Gen Unit := do
  address queue memBase rs1 imm
  let v1 ← raLoad queue rs2
  emitStore size v1 tempReg 0

/-! ## Fused nodes -/

/-- The loop over `ir->fuse[0..imm2)`. -/
def fuseLoop (body : OpcodeFuse → Gen Unit) (ir : Insn) : Gen Unit := (ir.fuse.take ir.imm2.toNat).forM body

/-- The body of `do_fuse5`; its `default` is unreachable. -/
def fuseShift (f : OpcodeFuse) : Gen Unit :=
  match f.opcode with
  | .slli => shiftImm queue .shl f.rs1 f.rd f.imm
  | .srli => shiftImm queue .shr f.rs1 f.rd f.imm
  | .srai => shiftImm queue .sar f.rs1 f.rd f.imm
  | _ => Emitter.fail

/-- `do_fuse2`: `lui` and `add`. -/
def fuse2 (ir : Insn) : Gen Unit := do
  let v0 ← mapVmReg queue ir.rd
  emitLoadImm v0 ir.imm
  emitMov v0 tempReg
  let v1 ← raLoad queue ir.rs1
  let v2 ← mapVmRegReserved queue ir.rs2 v1
  emitMov v1 v2
  emitAlu32 .add tempReg v2

/-- `do_fuse9`: `lui` and `lw`. -/
def fuse9 (ir : Insn) : Gen Unit := do
  loadConst queue ir.rd ir.imm
  emitLoadImmSext tempReg (memBase + (ir.imm + ir.imm2).setWidth 64)
  let v1 ← mapVmReg queue ir.rs2
  emitLoad .s32 tempReg v1 0

/-- `do_fuse10`: `lui` and `sw`. -/
def fuse10 (ir : Insn) : Gen Unit := do
  loadConst queue ir.rd ir.imm
  let v1 ← raLoad queue ir.rs1
  emitLoadImmSext tempReg (memBase + (ir.imm + ir.imm2).setWidth 64)
  emitStore .s32 v1 tempReg 0

/-- `do_fuse11`: `lw` and the increment of its base. -/
def fuse11 (ir : Insn) : Gen Unit := do
  address queue memBase ir.rs1 ir.imm
  let v1 ← mapVmReg queue ir.rd
  emitLoad .s32 tempReg v1 0
  let v0 ← mapVmReg queue ir.rs1
  emitAlu32Imm32 .add v0 ir.imm2
  setDirty v0 true

end Macros

/-! ## The handlers -/

section Handlers

variable (queue : List Reg) (memBase : BitVec 64) (ir : Insn)

/-- The handlers in `dispatch_table` that go on with the next node. The others are in `genTail`, call into the host
(`ecall`, `ebreak`, `cebreak`, `fuse6`), or are `assert(NULL)`. -/
def gen : Gen Unit :=
  match ir.opcode with
  | .nop | .cnop => pure ()
  | .lui | .cli | .clui => loadConst queue ir.rd ir.imm
  | .auipc => loadConst queue ir.rd (ir.pc + ir.imm)
  | .lb => load queue memBase .s8 true ir.rs1 ir.rd ir.imm
  | .lh => load queue memBase .s16 true ir.rs1 ir.rd ir.imm
  | .lw | .clw => load queue memBase .s32 false ir.rs1 ir.rd ir.imm
  | .lbu => load queue memBase .s8 false ir.rs1 ir.rd ir.imm
  | .lhu => load queue memBase .s16 false ir.rs1 ir.rd ir.imm
  | .clwsp => load queue memBase .s32 false regSp ir.rd ir.imm
  | .sb => store queue memBase .s8 ir.rs1 ir.rs2 ir.imm
  | .sh => store queue memBase .s16 ir.rs1 ir.rs2 ir.imm
  | .sw | .csw => store queue memBase .s32 ir.rs1 ir.rs2 ir.imm
  | .cswsp => store queue memBase .s32 regSp ir.rs2 ir.imm
  | .addi => aluImm queue .add ir.rs1 ir.rd ir.imm
  | .xori => aluImm queue .xor ir.rs1 ir.rd ir.imm
  | .ori => aluImm queue .or ir.rs1 ir.rd ir.imm
  | .andi => aluImm queue .and ir.rs1 ir.rd ir.imm
  | .slti => sltImm queue .l ir.rs1 ir.rd ir.imm
  | .sltiu => sltImm queue .b ir.rs1 ir.rd ir.imm
  | .slli => shiftImm queue .shl ir.rs1 ir.rd ir.imm
  | .srli => shiftImm queue .shr ir.rs1 ir.rd ir.imm
  | .srai => shiftImm queue .sar ir.rs1 ir.rd ir.imm
  | .add | .cadd => aluReg queue .add ir.rs1 ir.rs2 ir.rd
  | .sub | .csub => aluReg queue .sub ir.rs1 ir.rs2 ir.rd
  | .xor | .cxor => aluReg queue .xor ir.rs1 ir.rs2 ir.rd
  | .or | .cor => aluReg queue .or ir.rs1 ir.rs2 ir.rd
  | .and | .cand => aluReg queue .and ir.rs1 ir.rs2 ir.rd
  | .sll => shiftReg queue .shl ir.rs1 ir.rs2 ir.rd
  | .srl => shiftReg queue .shr ir.rs1 ir.rs2 ir.rd
  | .sra => shiftReg queue .sar ir.rs1 ir.rs2 ir.rd
  | .slt => sltReg queue .l ir.rs1 ir.rs2 ir.rd
  | .sltu => sltReg queue .b ir.rs1 ir.rs2 ir.rd
  | .mul => mulDiv queue .mul ir.rs1 ir.rs2 ir.rd
  | .mulh => mulHighSext queue ir.rs1 ir.rs2 ir.rd true true
  | .mulhsu => mulHighSext queue ir.rs1 ir.rs2 ir.rd true false
  | .mulhu => mulHigh queue ir.rs1 ir.rs2 ir.rd
  | .div => divRem queue .div ir.rs1 ir.rs2 ir.rd
  | .divu => mulDiv queue .div ir.rs1 ir.rs2 ir.rd
  | .rem => divRem queue .mod ir.rs1 ir.rs2 ir.rd
  | .remu => mulDiv queue .mod ir.rs1 ir.rs2 ir.rd
  | .caddi4spn => aluImm queue .add regSp ir.rd ((ir.imm.setWidth 16).setWidth 32)
  | .caddi => aluInPlace queue .add ir.rd (signExtendH ir.imm)
  | .caddi16sp => aluInPlace queue .add ir.rd ir.imm
  | .candi => aluInPlace queue .and ir.rs1 ir.imm
  | .csrli => shiftInPlace queue .shr ir.rs1 ir.shamt
  | .csrai => shiftInPlace queue .sar ir.rs1 ir.shamt
  | .cslli => shiftInPlace queue .shl ir.rd (ir.imm.setWidth 8)
  | .cmv => move queue ir.rs2 ir.rd
  | .fuse1 => fuseLoop (fun f => loadConst queue f.rd f.imm) ir
  | .fuse2 => fuse2 queue ir
  | .fuse3 => fuseLoop (fun f => store queue memBase .s32 f.rs1 f.rs2 f.imm) ir
  | .fuse4 => fuseLoop (fun f => load queue memBase .s32 false f.rs1 f.rd f.imm) ir
  | .fuse5 => fuseLoop (fuseShift queue) ir
  | .fuse7 => fuseLoop (fun f => aluImm queue .add f.rs1 f.rd f.imm) ir
  | .fuse8 => loadConst queue ir.rd (ir.imm + ir.imm2)
  | .fuse9 => fuse9 queue memBase ir
  | .fuse10 => fuse10 queue memBase ir
  | .fuse11 => fuse11 queue memBase ir
  | _ => Emitter.fail

/-- `rv->PC = pc` from the temporary register. -/
def storePc : Gen Unit := emitStore .s32 tempReg rvReg pcOff

/-- `emit_jmp` if the node is linked, and the exit with `PC = pc` behind it. -/
def leaveTo (linked : Bool) (pc : Word) : Gen (Ending Word) := do
  let code ← Emitter.capture do
    emitLoadImm tempReg pc
    storePc
  return if linked then .jmp pc (.seq code .exit) else .seq code .exit

/-- `EMIT_BRANCH_EPILOGUE` behind the comparison, the registers stored back. -/
def branchTo (c : X64.Cond) (lk : TailLinks) (taken untaken : Word) : Gen (Ending Word) := do
  storeBack
  let no ← leaveTo lk.untaken.isSome untaken
  let yes ← leaveTo lk.taken.isSome taken
  return .cond c yes no

def branch (c : X64.Cond) (lk : TailLinks) : Gen (Ending Word) := do
  let (v0, v1) ← raLoad2 queue ir.rs1 ir.rs2
  emitCmp32 v1 v0
  branchTo c lk (ir.pc + ir.imm) (ir.pc + 4)

def cbranch (c : X64.Cond) (lk : TailLinks) : Gen (Ending Word) := do
  let v0 ← raLoad queue ir.rs1
  emitCmpImm32 v0 0
  branchTo c lk (ir.pc + ir.imm) (ir.pc + 2)

/-- `do_fuse12`: `addi` and `bne`. -/
def fuse12 (lk : TailLinks) : Gen (Ending Word) := do
  let v0 ← raLoad queue ir.rs1
  let v1 ← mapVmRegReserved queue ir.rd v0
  if v0 ≠ v1 then emitMov v0 v1
  emitAlu32Imm32 .add v1 ir.imm
  emitCmpImm32 v1 0
  branchTo .ne lk (ir.pc + 4 + ir.imm2) (ir.pc + 8)

/-- `vm_reg = map_vm_reg(state, rd); emit_load_imm(state, vm_reg, ret)`. -/
def link (rd : Reg) (ret : Word) : Gen Unit := loadConst queue rd ret

/-- The end of `jal`, `cjal` and `cj`. -/
def jumpTo (pc : Word) : Gen (Ending Word) := do
  storeBack
  leaveTo true pc

/-- `parse_branch_history_table` and the exit with the PC that is in the temporary register. -/
def leaveIndirect (lk : TailLinks) : Gen (Ending Word) := do
  storeBack
  lk.history.elim Emitter.fail fun bt => do
    if bt.shouldTranslate {} 0 bt.maxIdx then
      saveReg firstHost
      unmapVmReg firstHost
      emitLoadImm (hostReg firstHost) (bt.pc bt.maxIdx)
      emitCmp32 tempReg (hostReg firstHost)
      let code ← Emitter.capture storePc
      return .cond .ne (.seq code .exit) (.jmp (bt.pc bt.maxIdx) (.seq code .exit))
    else
      let code ← Emitter.capture storePc
      return .seq code .exit

def jalr (lk : TailLinks) : Gen (Ending Word) := do
  let v0 ← raLoad queue ir.rs1
  emitMov v0 tempReg
  emitAlu32Imm32 .add tempReg ir.imm
  emitAlu32Imm32 .and tempReg (~~~1)
  if ir.rd ≠ 0 then link queue ir.rd (ir.pc + 4)
  leaveIndirect lk

/-- `cjr`, and `cjalr` with `ra`. -/
def cjumpReg (lk : TailLinks) (linked : Bool) : Gen (Ending Word) := do
  let v0 ← raLoad queue ir.rs1
  emitMov v0 tempReg
  if linked then link queue regRa (ir.pc + 2)
  leaveIndirect lk

def genTail (lk : TailLinks) : Option (Gen (Ending Word)) :=
  match ir.opcode with
  | .jal => some do
    if ir.rd ≠ 0 then link queue ir.rd (ir.pc + 4)
    jumpTo (ir.pc + ir.imm)
  | .jalr => some (jalr queue ir lk)
  | .beq => some (branch queue ir .e lk)
  | .bne => some (branch queue ir .ne lk)
  | .blt => some (branch queue ir .l lk)
  | .bge => some (branch queue ir .ge lk)
  | .bltu => some (branch queue ir .b lk)
  | .bgeu => some (branch queue ir .ae lk)
  | .cjal => some do
    link queue regRa (ir.pc + 2)
    jumpTo (ir.pc + ir.imm)
  | .cj => some (jumpTo (ir.pc + ir.imm))
  | .cbeqz => some (cbranch queue ir .e lk)
  | .cbnez => some (cbranch queue ir .ne lk)
  | .cjr => some (cjumpReg queue ir lk false)
  | .cjalr => some (cjumpReg queue ir lk true)
  | .fuse12 => some (fuse12 queue ir lk)
  | _ => none

end Handlers

/-! ## Blocks -/

/-- A block as `translate` sees it; `links` belong to its last node. -/
structure JitBlock where
  irs : List Insn
  pageTerminated : Bool
  pcEnd : Word
  links : TailLinks

/-- The loop of `translate` from the node of index `idx` on, and what is emitted behind the last one. -/
def translateFrom (queue : List Reg) (memBase : BitVec 64) (liveness : Reg → Int) (b : JitBlock) :
    Nat → List Insn → Gen (Ending Word)
  | _, [] =>
    if b.pageTerminated then do
      storeBack
      leaveTo b.links.taken.isSome b.pcEnd
    else Emitter.fail
  | idx, ir :: irs => do
    Emitter.modify (RegMap.regsRefresh liveness idx)
    match genTail queue ir b.links with
    | some e => e
    | none => do
      gen queue memBase ir
      translateFrom queue memBase liveness b (idx + 1) irs

/-- `translate`, without the position of the code in the buffer. -/
def translate (queue : List Reg) (memBase : BitVec 64) (liveness : Reg → Int) (b : JitBlock) : Gen (Ending Word) := do
  Emitter.modify fun _ => RegMap.reset
  translateFrom queue memBase liveness b 0 b.irs

end Rv32emu.Tier1
