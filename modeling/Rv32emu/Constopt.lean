import Rv32emu.Template

/-!
# Constant propagation and folding

The `CONSTOPT(inst, code)` rules of `rv32_constopt.c` and the loop `optimize_constant` of
`emulate.c`. As in the interpreter, a rule is a row of a table: `constoptRule : Opcode → Fold`,
with `Fold.run` what a rule of each shape does to the node and to the tracked constants. The folded
arithmetic is written out here a second time, as the source does.
-/

namespace Rv32emu

structure ConstoptInfo where
  isConstant : Reg → Bool
  constVal : Reg → Word

namespace ConstoptInfo

/-- `{.is_constant[0] = true}`. -/
def init : ConstoptInfo := ⟨fun r => r = regZero, fun _ => 0⟩

/-- `info->is_constant[r] = true; info->const_val[r] = v`. -/
def know (info : ConstoptInfo) (r : Reg) (v : Word) : ConstoptInfo :=
  ⟨Function.update info.isConstant r true, Function.update info.constVal r v⟩

/-- `info->const_val[r] = v`. -/
def setVal (info : ConstoptInfo) (r : Reg) (v : Word) : ConstoptInfo :=
  { info with constVal := Function.update info.constVal r v }

/-- `info->is_constant[r] = false`. -/
def forget (info : ConstoptInfo) (r : Reg) : ConstoptInfo :=
  { info with isConstant := Function.update info.isConstant r false }

end ConstoptInfo

/-- The shapes of the rules in `rv32_constopt.c`. -/
inductive Fold
  /-- An empty rule. -/
  | keep
  /-- `is_constant[rd] = false`. -/
  | forget
  /-- `if (rd) is_constant[rd] = false`. -/
  | forgetNz
  /-- The node already loads its immediate. -/
  | known
  | auipc
  /-- `jal` and `jalr`: `pc + 4` into `rd` if `rd` is not `x0`. -/
  | link
  | cjal
  | cjalr
  /-- Folded to `op` if `src` is constant, otherwise `rd` is no longer constant. -/
  | fold1 (op : Opcode) (src : Insn → Reg) (f : Insn → Word → Word)
  /-- Folded to `op` if `rs1` and `rs2` are constant, otherwise `rd` is no longer constant. -/
  | fold2 (op : Opcode) (f : Word → Word → Word)
  /-- Folded in place if `reg`, both operand and destination, is constant. -/
  | inPlace (reg : Insn → Reg) (f : Insn → Word → Word)
  /-- `OPT_BRANCH_FUNC`, with the condition under which the branch is not taken. -/
  | branch (untaken : Word → Word → Bool)
  | cbranch (untaken : Word → Bool)

def Fold.run (ir : Insn) (info : ConstoptInfo) : Fold → Insn × ConstoptInfo
  | .keep => (ir, info)
  | .forget => (ir, info.forget ir.rd)
  | .forgetNz => (ir, if ir.rd ≠ 0 then info.forget ir.rd else info)
  | .known => (ir, info.know ir.rd ir.imm)
  | .auipc =>
    let imm := ir.imm + ir.pc
    ({ ir with imm, opcode := .lui }, info.know ir.rd imm)
  | .link => (ir, if ir.rd ≠ 0 then info.know ir.rd (ir.pc + 4) else info)
  | .cjal => (ir, info.know regRa (ir.pc + 2))
  -- The constant flag is set for `ra`, the value is stored for `rd`.
  | .cjalr =>
    (ir, { (info.setVal ir.rd (ir.pc + 2)) with
            isConstant := Function.update info.isConstant regRa true })
  | .fold1 op src f =>
    if info.isConstant (src ir) then
      let imm := f ir (info.constVal (src ir))
      ({ ir with imm, opcode := op }, info.know ir.rd imm)
    else (ir, info.forget ir.rd)
  | .fold2 op f =>
    if info.isConstant ir.rs1 ∧ info.isConstant ir.rs2 then
      let imm := f (info.constVal ir.rs1) (info.constVal ir.rs2)
      ({ ir with imm, opcode := op }, info.know ir.rd imm)
    else (ir, info.forget ir.rd)
  | .inPlace reg f =>
    if info.isConstant (reg ir) then
      let imm := f ir (info.constVal (reg ir))
      ({ ir with imm, rd := reg ir, opcode := .clui }, info.setVal (reg ir) imm)
    else (ir, info)
  | .branch untaken =>
    if info.isConstant ir.rs1 ∧ info.isConstant ir.rs2 then
      let imm := if untaken (info.constVal ir.rs1) (info.constVal ir.rs2) then 4 else ir.imm
      ({ ir with imm, opcode := .jal }, info)
    else (ir, info)
  | .cbranch untaken =>
    if info.isConstant ir.rs1 then
      let imm := if untaken (info.constVal ir.rs1) then 2 else ir.imm
      ({ ir with imm, opcode := .cj }, info)
    else (ir, info)

/-- The rows of `rv32_constopt.c`. -/
def constoptRule : Opcode → Fold
  | .nop => .keep
  | .lui => .known
  | .auipc => .auipc
  | .jal | .jalr => .link
  | .beq => .branch fun x y => x != y
  | .bne => .branch fun x y => x == y
  | .blt => .branch fun x y => y.sle x
  | .bge => .branch fun x y => x.slt y
  | .bltu => .branch fun x y => y.ule x
  | .bgeu => .branch fun x y => x.ult y
  | .lb | .lh | .lw | .lbu | .lhu => .forget
  | .sb | .sh | .sw => .keep
  | .addi => .fold1 .lui Insn.rs1 fun ir c => ir.imm + c
  | .slti => .fold1 .lui Insn.rs1 fun ir c => ofCond (c.slt ir.imm)
  | .sltiu => .fold1 .lui Insn.rs1 fun ir c => ofCond (c.ult ir.imm)
  | .xori => .fold1 .lui Insn.rs1 fun ir c => ir.imm ^^^ c
  | .ori => .fold1 .lui Insn.rs1 fun ir c => ir.imm ||| c
  | .andi => .fold1 .lui Insn.rs1 fun ir c => ir.imm &&& c
  | .slli => .fold1 .lui Insn.rs1 fun ir c => c <<< (ir.imm &&& 0x1f).toNat
  | .srli => .fold1 .lui Insn.rs1 fun ir c => c >>> (ir.imm &&& 0x1f).toNat
  | .srai => .fold1 .lui Insn.rs1 fun ir c => c.sshiftRight (ir.imm &&& 0x1f).toNat
  | .add => .fold2 .lui fun c d => c + d
  | .sub => .fold2 .lui fun c d => c - d
  | .sll => .fold2 .lui fun c d => c <<< (d &&& 0x1f).toNat
  | .slt => .fold2 .lui fun c d => ofCond (c.slt d)
  | .sltu => .fold2 .lui fun c d => ofCond (c.ult d)
  | .xor => .fold2 .lui fun c d => c ^^^ d
  | .srl => .fold2 .lui fun c d => c >>> (d &&& 0x1f).toNat
  | .sra => .fold2 .lui fun c d => c.sshiftRight (d &&& 0x1f).toNat
  | .or => .fold2 .lui fun c d => c ||| d
  | .and => .fold2 .lui fun c d => c &&& d
  | .fence | .ecall | .ebreak | .wfi | .uret | .sret | .hret | .mret | .sfencevma | .fencei => .keep
  | .csrrw | .csrrs | .csrrc | .csrrwi | .csrrsi | .csrrci => .forget
  | .mul => .fold2 .lui fun c d => (c.signExtend 64 * d.signExtend 64 &&& 0xffffffff).setWidth 32
  | .mulh => .fold2 .lui fun a b => ((a.signExtend 64 * b.signExtend 64) >>> 32).setWidth 32
  | .mulhsu => .fold2 .lui fun a b => ((a.signExtend 64 * b.setWidth 64) >>> 32).setWidth 32
  -- A signed 64-bit product, shifted arithmetically.
  | .mulhu => .fold2 .lui fun c d => ((c.setWidth 64 * d.setWidth 64).sshiftRight 32).setWidth 32
  | .div => .fold2 .lui fun c d =>
      if d = 0 then BitVec.allOnes 32 else if d = -1 ∧ c = 0x80000000 then c else c.sdiv d
  | .divu => .fold2 .lui fun c d => if d = 0 then BitVec.allOnes 32 else c / d
  | .rem => .fold2 .lui fun c d =>
      if d = 0 then c else if d = -1 ∧ c = 0x80000000 then 0 else c.srem d
  | .remu => .fold2 .lui fun c d => if d = 0 then c else c % d
  | .lrw => .forgetNz
  | .scw => .keep
  | .amoswapw | .amoaddw | .amoxorw | .amoandw | .amoorw | .amominw | .amomaxw | .amominuw
  | .amomaxuw => .forgetNz
  | .flw | .fsw | .fmadds | .fmsubs | .fnmsubs | .fnmadds | .fadds | .fsubs | .fmuls | .fdivs
  | .fsqrts | .fsgnjs | .fsgnjns | .fsgnjxs | .fmins | .fmaxs => .keep
  | .fcvtws | .fcvtwus | .fmvxw | .feqs | .flts | .fles | .fclasss => .forgetNz
  | .fcvtsw | .fcvtswu | .fmvwx => .keep
  | .caddi4spn => .fold1 .clui (fun _ => regSp) fun ir c => c + (ir.imm.setWidth 16).setWidth 32
  | .clw => .forget
  | .csw | .cnop => .keep
  | .caddi => .inPlace Insn.rd fun ir c => c + signExtendH ir.imm
  | .cjal => .cjal
  | .cli => .known
  | .caddi16sp => .inPlace Insn.rd fun ir c => c + ir.imm
  | .clui => .known
  | .csrli => .inPlace Insn.rs1 fun ir c => c >>> ir.shamt.toNat
  | .csrai => .inPlace Insn.rs1 fun ir c =>
      let mask := 0x80000000 &&& c
      (List.range ir.shamt.toNat).foldl (fun imm i => imm ||| (mask >>> i)) (c >>> ir.shamt.toNat)
  | .candi => .inPlace Insn.rs1 fun ir c => c &&& ir.imm
  | .csub => .fold2 .clui fun c d => c - d
  | .cxor => .fold2 .clui fun c d => c ^^^ d
  | .cor => .fold2 .clui fun c d => c ||| d
  | .cand => .fold2 .clui fun c d => c &&& d
  | .cj => .keep
  | .cbeqz => .cbranch fun c => c != 0
  | .cbnez => .cbranch fun c => c == 0
  | .cslli => .inPlace Insn.rd fun ir c => shlVar c (ir.imm.setWidth 8)
  | .clwsp => .forget
  | .cjr => .keep
  | .cmv => .fold1 .clui Insn.rs2 fun _ c => c
  | .cebreak => .keep
  | .cjalr => .cjalr
  | .cadd => .fold2 .clui fun c d => c + d
  | .cswsp | .cflwsp | .cfswsp | .cflw | .cfsw => .keep
  | .sh1add | .sh2add | .sh3add | .andn | .orn | .xnor | .clz | .ctz | .cpop | .max | .maxu | .min
  | .minu | .sextb | .sexth | .zexth | .rol | .ror | .rori | .orcb | .rev8 | .clmul | .clmulh
  | .clmulr | .bclr | .bclri | .bext | .bexti | .binv | .binvi | .bset | .bseti => .forgetNz
  | .fuse1 | .fuse2 | .fuse3 | .fuse4 | .fuse5 | .fuse6 | .fuse7 | .fuse8 | .fuse9 | .fuse10
  | .fuse11 | .fuse12 => .keep

/-- `constopt_<op>`: the rewritten node and the updated info. -/
def constopt (ir : Insn) (info : ConstoptInfo) : Insn × ConstoptInfo :=
  (constoptRule ir.opcode).run ir info

/-- The loop of `optimize_constant` over the IR list. -/
def constoptRun : List Insn → ConstoptInfo → List Insn × ConstoptInfo
  | [], info => ([], info)
  | ir :: irs, info =>
    let r := constopt ir info
    let rest := constoptRun irs r.2
    (r.1 :: rest.1, rest.2)

def optimizeConstant (irs : List Insn) : List Insn := (constoptRun irs .init).1

end Rv32emu
