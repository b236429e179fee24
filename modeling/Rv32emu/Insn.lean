import Mathlib

/-!
# The instruction IR shared by the interpreter, the optimisers and the JIT

* `Opcode` : the `rv_insn_*` enumeration of `RV_INSN_LIST`, followed by `FUSE_INSN_LIST`;
* `Opcode.len`, `Opcode.canBranch`, `Opcode.translatable` : the columns of `RV_INSN_LIST`;
* `Opcode.isUnconditionalBranch`, `Opcode.isDirectBranch`, `Opcode.isIndirectBranch` : the
  classes the block linker distinguishes;
* `OpcodeFuse`, `Insn` : `opcode_fuse_t` and the decoded part of `rv_insn_t`.
-/

namespace Rv32emu

abbrev Word := BitVec 32

/-- A register number; `N_RV_REGS` is 32 outside RV32E. -/
abbrev Reg := BitVec 5

abbrev regZero : Reg := 0
abbrev regRa : Reg := 1
abbrev regSp : Reg := 2
abbrev regA7 : Reg := 17

/-- `rv_insn_*`. `sret` exists in `SYSTEM` builds only. -/
inductive Opcode
  | nop | lui | auipc | jal | jalr | beq | bne | blt | bge | bltu | bgeu | lb | lh | lw | lbu
  | lhu | sb | sh | sw | addi | slti | sltiu | xori | ori | andi | slli | srli | srai | add | sub
  | sll | slt | sltu | xor | srl | sra | or | and | fence | ecall | ebreak | wfi | uret | sret
  | hret | mret | sfencevma | fencei | csrrw | csrrs | csrrc | csrrwi | csrrsi | csrrci | sh1add
  | sh2add | sh3add | andn | orn | xnor | clz | ctz | cpop | max | maxu | min | minu | sextb
  | sexth | zexth | rol | ror | rori | orcb | rev8 | clmul | clmulh | clmulr | bclr | bclri
  | bext | bexti | binv | binvi | bset | bseti | mul | mulh | mulhsu | mulhu | div | divu | rem
  | remu | lrw | scw | amoswapw | amoaddw | amoxorw | amoandw | amoorw | amominw | amomaxw
  | amominuw | amomaxuw | flw | fsw | fmadds | fmsubs | fnmsubs | fnmadds | fadds | fsubs | fmuls
  | fdivs | fsqrts | fsgnjs | fsgnjns | fsgnjxs | fmins | fmaxs | fcvtws | fcvtwus | fmvxw | feqs
  | flts | fles | fclasss | fcvtsw | fcvtswu | fmvwx | caddi4spn | clw | csw | cnop | caddi
  | cjal | cli | caddi16sp | clui | csrli | csrai | candi | csub | cxor | cor | cand | cj | cbeqz
  | cbnez | cslli | clwsp | cjr | cmv | cebreak | cjalr | cadd | cswsp | cflwsp | cfswsp | cflw
  | cfsw | fuse1 | fuse2 | fuse3 | fuse4 | fuse5 | fuse6 | fuse7 | fuse8 | fuse9 | fuse10
  | fuse11 | fuse12
  deriving DecidableEq, Repr

namespace Opcode

/-- `__rv_insn_*_len`. -/
def len : Opcode → Word
  | .caddi4spn | .clw | .csw | .cnop | .caddi | .cjal | .cli | .caddi16sp | .clui | .csrli
  | .csrai | .candi | .csub | .cxor | .cor | .cand | .cj | .cbeqz | .cbnez | .cslli | .clwsp
  | .cjr | .cmv | .cebreak | .cjalr | .cadd | .cswsp | .cflwsp | .cfswsp | .cflw | .cfsw => 2
  | _ => 4

/-- `insn_is_branch`: the `can_branch` column. A fused opcode is not in the list. -/
def canBranch : Opcode → Bool
  | .jal | .jalr | .beq | .bne | .blt | .bge | .bltu | .bgeu | .fence | .ecall | .ebreak | .sret
  | .mret | .sfencevma | .fencei | .csrrw | .cjal | .cj | .cbeqz | .cbnez | .cjr | .cebreak
  | .cjalr => true
  | _ => false

/-- `insn_is_translatable`: the opcodes the tier-1 JIT accepts. -/
def translatable : Opcode → Bool
  | .fence | .wfi | .uret | .sret | .hret | .mret | .sfencevma | .fencei | .csrrw | .csrrs
  | .csrrc | .csrrwi | .csrrsi | .csrrci | .sh1add | .sh2add | .sh3add | .andn | .orn | .xnor
  | .clz | .ctz | .cpop | .max | .maxu | .min | .minu | .sextb | .sexth | .zexth | .rol | .ror
  | .rori | .orcb | .rev8 | .clmul | .clmulh | .clmulr | .bclr | .bclri | .bext | .bexti | .binv
  | .binvi | .bset | .bseti | .lrw | .scw | .amoswapw | .amoaddw | .amoxorw | .amoandw | .amoorw
  | .amominw | .amomaxw | .amominuw | .amomaxuw | .flw | .fsw | .fmadds | .fmsubs | .fnmsubs
  | .fnmadds | .fadds | .fsubs | .fmuls | .fdivs | .fsqrts | .fsgnjs | .fsgnjns | .fsgnjxs
  | .fmins | .fmaxs | .fcvtws | .fcvtwus | .fmvxw | .feqs | .flts | .fles | .fclasss | .fcvtsw
  | .fcvtswu | .fmvwx => false
  | .fuse1 | .fuse2 | .fuse3 | .fuse4 | .fuse5 | .fuse6 | .fuse7 | .fuse8 | .fuse9 | .fuse10
  | .fuse11 | .fuse12 => false
  | _ => true

def isUnconditionalBranch : Opcode → Bool
  | .ecall | .ebreak | .jal | .jalr | .mret | .csrrw | .sret | .cj | .cjalr | .cjal | .cjr
  | .cebreak => true
  | _ => false

def isDirectBranch : Opcode → Bool
  | .jal | .cjal | .cj => true
  | _ => false

def isIndirectBranch : Opcode → Bool
  | .jalr | .cjalr | .cjr => true
  | _ => false

/-- An entry of `FUSE_INSN_LIST`. -/
def isFuse : Opcode → Bool
  | .fuse1 | .fuse2 | .fuse3 | .fuse4 | .fuse5 | .fuse6 | .fuse7 | .fuse8 | .fuse9 | .fuse10
  | .fuse11 | .fuse12 => true
  | _ => false

end Opcode

/-- `opcode_fuse_t`: the first eight bytes of `rv_insn_t`. -/
structure OpcodeFuse where
  imm : Word
  rd : Reg
  rs1 : Reg
  rs2 : Reg
  opcode : Opcode
  deriving DecidableEq, Repr

/-- `rv_insn_t` without its pointers; a zeroed node is `{}`. -/
structure Insn where
  imm : Word := 0
  rd : Reg := 0
  rs1 : Reg := 0
  rs2 : Reg := 0
  opcode : Opcode := .nop
  shamt : BitVec 8 := 0
  rm : BitVec 8 := 0
  imm2 : Word := 0
  fuse : List OpcodeFuse := []
  pc : Word := 0
  deriving DecidableEq, Repr

namespace Insn

/-- `rs3` shares its storage with the low byte of `imm`. -/
def rs3 (ir : Insn) : Reg := ir.imm.setWidth 5

/-- The `memcpy` of a node into a fuse slot. -/
def toFuse (ir : Insn) : OpcodeFuse := ⟨ir.imm, ir.rd, ir.rs1, ir.rs2, ir.opcode⟩

end Insn

end Rv32emu
