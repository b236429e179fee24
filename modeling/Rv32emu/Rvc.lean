import Rv32emu.ConstoptRewrite

/-!
# The expansion of compressed instructions

The RVC part of the RISC-V specification, stated without the decoder, and what an instruction of it
is expected to do.

* `ofBits` : an immediate, given bit by bit as the specification tabulates it;
* `expand` : the base instruction a 16-bit word stands for, if it is neither a HINT nor reserved. The
  code points of the D extension and of RV64, and those that RV32C leaves to custom extensions, are
  reserved here;
* `Effect` : registers, memory, next `PC` and trap, and where the default trap handler goes on;
* `Insn.expected` : the effect of a base instruction that is `len` bytes long. For `len = 4` it is what
  the handler of the base instruction does (`expected_four`).
-/

namespace Rv32emu

/-! ## Immediates -/

/-- The word whose bit `i` is `f i`. -/
def ofBits (f : Nat → Bool) : Word := BitVec.ofFnLE fun i : Fin 32 => f i

theorem getLsbD_ofBits (f : Nat → Bool) {i : Nat} (hi : i < 32) : (ofBits f).getLsbD i = f i := by
  simp [ofBits, hi]

namespace Rvc

variable (w : Word)

/-- `nzuimm[5:4|9:6|2|3]` of C.ADDI4SPN. -/
def addi4spnImm : Word := ofBits fun
  | 2 => w.getLsbD 6
  | 3 => w.getLsbD 5
  | 4 => w.getLsbD 11
  | 5 => w.getLsbD 12
  | 6 => w.getLsbD 7
  | 7 => w.getLsbD 8
  | 8 => w.getLsbD 9
  | 9 => w.getLsbD 10
  | _ => false

/-- `uimm[5:3|2|6]` of C.LW and its relatives. -/
def clImm : Word := ofBits fun
  | 2 => w.getLsbD 6
  | 3 => w.getLsbD 10
  | 4 => w.getLsbD 11
  | 5 => w.getLsbD 12
  | 6 => w.getLsbD 5
  | _ => false

/-- `imm[5|4:0]` of C.ADDI, C.LI and C.ANDI, sign-extended. -/
def ciImm : Word := ofBits fun
  | 0 => w.getLsbD 2
  | 1 => w.getLsbD 3
  | 2 => w.getLsbD 4
  | 3 => w.getLsbD 5
  | 4 => w.getLsbD 6
  | _ => w.getLsbD 12

/-- `nzimm[9|4|6|8:7|5]` of C.ADDI16SP, sign-extended. -/
def addi16spImm : Word := ofBits fun
  | 0 | 1 | 2 | 3 => false
  | 4 => w.getLsbD 6
  | 5 => w.getLsbD 2
  | 6 => w.getLsbD 5
  | 7 => w.getLsbD 3
  | 8 => w.getLsbD 4
  | _ => w.getLsbD 12

/-- `nzimm[17|16:12]` of C.LUI, sign-extended. -/
def luiImm : Word := ofBits fun
  | 12 => w.getLsbD 2
  | 13 => w.getLsbD 3
  | 14 => w.getLsbD 4
  | 15 => w.getLsbD 5
  | 16 => w.getLsbD 6
  | n => if n < 12 then false else w.getLsbD 12

/-- `shamt[4:0]`; `shamt[5]` is bit 12 of the word. -/
def shamt : Word := ofBits fun
  | 0 => w.getLsbD 2
  | 1 => w.getLsbD 3
  | 2 => w.getLsbD 4
  | 3 => w.getLsbD 5
  | 4 => w.getLsbD 6
  | _ => false

/-- `imm[11|4|9:8|10|6|7|3:1|5]` of C.J and C.JAL, sign-extended. -/
def cjImm : Word := ofBits fun
  | 0 => false
  | 1 => w.getLsbD 3
  | 2 => w.getLsbD 4
  | 3 => w.getLsbD 5
  | 4 => w.getLsbD 11
  | 5 => w.getLsbD 2
  | 6 => w.getLsbD 7
  | 7 => w.getLsbD 6
  | 8 => w.getLsbD 9
  | 9 => w.getLsbD 10
  | 10 => w.getLsbD 8
  | _ => w.getLsbD 12

/-- `imm[8|4:3|7:6|2:1|5]` of C.BEQZ and C.BNEZ, sign-extended. -/
def cbImm : Word := ofBits fun
  | 0 => false
  | 1 => w.getLsbD 3
  | 2 => w.getLsbD 4
  | 3 => w.getLsbD 10
  | 4 => w.getLsbD 11
  | 5 => w.getLsbD 2
  | 6 => w.getLsbD 5
  | 7 => w.getLsbD 6
  | _ => w.getLsbD 12

/-- `uimm[5|4:2|7:6]` of C.LWSP and C.FLWSP. -/
def lwspImm : Word := ofBits fun
  | 2 => w.getLsbD 4
  | 3 => w.getLsbD 5
  | 4 => w.getLsbD 6
  | 5 => w.getLsbD 12
  | 6 => w.getLsbD 2
  | 7 => w.getLsbD 3
  | _ => false

/-- `uimm[5:2|7:6]` of C.SWSP and C.FSWSP. -/
def swspImm : Word := ofBits fun
  | 2 => w.getLsbD 9
  | 3 => w.getLsbD 10
  | 4 => w.getLsbD 11
  | 5 => w.getLsbD 12
  | 6 => w.getLsbD 7
  | 7 => w.getLsbD 8
  | _ => false

/-! ## The expansion -/

def rd : Reg := w.extractLsb' 7 5

def rs2 : Reg := w.extractLsb' 2 5

/-- `rd'`/`rs1'`, one of `x8` to `x15`. -/
def rd' : Reg := 0b01#2 ++ w.extractLsb' 7 3

/-- `rs2'`, also `rd'` of the CIW and CL formats. -/
def rs2' : Reg := 0b01#2 ++ w.extractLsb' 2 3

end Rvc

/-- What a 16-bit word stands for. -/
inductive Expansion
  | insn (ir : Insn)
  | hint
  | reserved
  deriving DecidableEq, Repr

open Rvc in
/-- The RVC table for RV32 with F and without D. -/
def expand (w : Word) : Expansion :=
  match (w.extractLsb' 13 3).toNat, (w.extractLsb' 0 2).toNat with
  | 0b000, 0b00 =>
    if addi4spnImm w = 0 then .reserved
    else .insn { opcode := .addi, rd := rs2' w, rs1 := regSp, imm := addi4spnImm w }
  | 0b010, 0b00 => .insn { opcode := .lw, rd := rs2' w, rs1 := rd' w, imm := clImm w }
  | 0b011, 0b00 => .insn { opcode := .flw, rd := rs2' w, rs1 := rd' w, imm := clImm w }
  | 0b110, 0b00 => .insn { opcode := .sw, rs1 := rd' w, rs2 := rs2' w, imm := clImm w }
  | 0b111, 0b00 => .insn { opcode := .fsw, rs1 := rd' w, rs2 := rs2' w, imm := clImm w }
  | 0b000, 0b01 =>
    if rd w = 0 then .hint else .insn { opcode := .addi, rd := rd w, rs1 := rd w, imm := ciImm w }
  | 0b001, 0b01 => .insn { opcode := .jal, rd := regRa, imm := cjImm w }
  | 0b010, 0b01 =>
    if rd w = 0 then .hint else .insn { opcode := .addi, rd := rd w, rs1 := regZero, imm := ciImm w }
  | 0b011, 0b01 =>
    if rd w = regSp then
      if addi16spImm w = 0 then .reserved
      else .insn { opcode := .addi, rd := regSp, rs1 := regSp, imm := addi16spImm w }
    else if luiImm w = 0 then .reserved
    else if rd w = 0 then .hint
    else .insn { opcode := .lui, rd := rd w, imm := luiImm w }
  | 0b100, 0b01 =>
    match (w.extractLsb' 10 2).toNat with
    | 0 =>
      if w.getLsbD 12 then .reserved
      else .insn { opcode := .srli, rd := rd' w, rs1 := rd' w, imm := shamt w }
    | 1 =>
      if w.getLsbD 12 then .reserved
      else .insn { opcode := .srai, rd := rd' w, rs1 := rd' w, imm := shamt w }
    | 2 => .insn { opcode := .andi, rd := rd' w, rs1 := rd' w, imm := ciImm w }
    | _ =>
      if w.getLsbD 12 then .reserved
      else
        let op : Opcode := match (w.extractLsb' 5 2).toNat with
          | 0 => .sub
          | 1 => .xor
          | 2 => .or
          | _ => .and
        .insn { opcode := op, rd := rd' w, rs1 := rd' w, rs2 := rs2' w }
  | 0b101, 0b01 => .insn { opcode := .jal, rd := regZero, imm := cjImm w }
  | 0b110, 0b01 => .insn { opcode := .beq, rs1 := rd' w, rs2 := regZero, imm := cbImm w }
  | 0b111, 0b01 => .insn { opcode := .bne, rs1 := rd' w, rs2 := regZero, imm := cbImm w }
  | 0b000, 0b10 =>
    if w.getLsbD 12 then .reserved
    else if rd w = 0 then .hint
    else .insn { opcode := .slli, rd := rd w, rs1 := rd w, imm := shamt w }
  | 0b010, 0b10 =>
    if rd w = 0 then .reserved
    else .insn { opcode := .lw, rd := rd w, rs1 := regSp, imm := lwspImm w }
  | 0b011, 0b10 => .insn { opcode := .flw, rd := rd w, rs1 := regSp, imm := lwspImm w }
  | 0b100, 0b10 =>
    if w.getLsbD 12 then
      if rs2 w = 0 then
        if rd w = 0 then .insn { opcode := .ebreak }
        else .insn { opcode := .jalr, rd := regRa, rs1 := rd w }
      else if rd w = 0 then .hint
      else .insn { opcode := .add, rd := rd w, rs1 := rd w, rs2 := rs2 w }
    else if rs2 w = 0 then
      if rd w = 0 then .reserved else .insn { opcode := .jalr, rd := regZero, rs1 := rd w }
    else if rd w = 0 then .hint
    else .insn { opcode := .add, rd := rd w, rs1 := regZero, rs2 := rs2 w }
  | 0b110, 0b10 => .insn { opcode := .sw, rs1 := regSp, rs2 := rs2 w, imm := swspImm w }
  | 0b111, 0b10 => .insn { opcode := .fsw, rs1 := regSp, rs2 := rs2 w, imm := swspImm w }
  | _, _ => .reserved

/-! ## Effects -/

/-- A trap raised in `s` is left to `rv_trap_default_handler`. -/
def Cpu.usesDefaultHandler (s : Cpu) : Bool := !s.isUOrSMode && s.csr.mtvec == 0

structure Effect where
  /-- The next `PC`, or the address of the instruction that traps. -/
  pc : Word
  trap : Option Trap
  /-- Where the default handler goes on after the trap. -/
  resume : Option Word
  cpu : Cpu

/-- The machine without `rv->compressed`, which only says where `resume` is. -/
def Cpu.bare (s : Cpu) : Cpu := { s.arch with compressed := false }

def Effect.goOn (pc : Word) (s : Cpu) : Effect := ⟨pc, none, none, s.bare⟩

/-- The trap `t` at `pc`, in an instruction that is followed by the one at `next`. -/
def Effect.trapAt (pc next : Word) (t : Trap) (s : Cpu) : Effect :=
  ⟨pc, some t, if s.usesDefaultHandler then some next else none, s.bare⟩

/-- `skipInsn` steps over two or four bytes. -/
def Result.effect (r : Result) : Effect :=
  match r.trap with
  | none => .goOn r.pc r.arch
  | some t => .trapAt r.pc (r.pc + if r.arch.compressed then 2 else 4) t r.arch

/-- The base instructions that `expand` produces. -/
def Opcode.isExpansion : Opcode → Bool
  | .addi | .lw | .flw | .sw | .fsw | .jal | .jalr | .lui | .srli | .srai | .andi | .sub | .xor | .or
  | .and | .beq | .bne | .slli | .add | .ebreak => true
  | _ => false

/-- The effect of a base instruction of `len` bytes, in a build with `EXT_C`. -/
def Insn.expected (env : Env) (len : Word) (ir : Insn) (pc : Word) (s : Cpu) : Effect :=
  match ir.opcode with
  | .jal => .goOn (pc + ir.imm) (s.setXNz ir.rd (pc + len))
  | .jalr => .goOn ((s.X ir.rs1 + ir.imm) &&& ~~~1) (s.setXNz ir.rd (pc + len))
  | .beq => .goOn (if s.X ir.rs1 = s.X ir.rs2 then pc + ir.imm else pc + len) s
  | .bne => .goOn (if s.X ir.rs1 = s.X ir.rs2 then pc + len else pc + ir.imm) s
  | op => match (rvop op).exec env ir {} 0 pc s with
    | .trap t s => .trapAt pc (pc + len) t s
    | f => .goOn (pc + len) f.cpu

@[simp] theorem Cpu.bare_arch (s : Cpu) : s.arch.bare = s.bare := rfl

@[simp] theorem Effect.goOn_arch (pc : Word) (s : Cpu) : Effect.goOn pc s.arch = .goOn pc s := rfl

/-- **At four bytes the expected effect is that of the handler.** -/
theorem expected_four {env : Env} (hC : env.extC = true) {ir : Insn} (hop : ir.opcode.isExpansion = true)
    (lk : Links) (noNext : Bool) (cycle : BitVec 64) (pc : Word) (s : Cpu) :
    (doRvop env ir lk noNext cycle pc s).result.effect = ir.expected env 4 pc s := by
  have hmis (x : Word) : insnMisaligned env x = false := by simp [insnMisaligned, hC]
  rw [doRvop_result]
  unfold Insn.expected
  cases hopc : ir.opcode <;> rw [hopc] at hop
  case jal =>
    simp only [rvop, Code.exec, hmis, Bool.false_eq_true, if_false, chainOr_result]
    rfl
  case jalr =>
    simp only [rvop, Code.exec, hmis, Bool.false_eq_true, if_false]
    rfl
  case beq | bne =>
    simp only [rvop, Opcode.len, branch_result, jumpTo, hmis, Bool.false_eq_true, if_false]
    by_cases heq : s.X ir.rs1 = s.X ir.rs2
    · simp [heq, Result.effect]
    · simp [heq, Result.effect]
  case lw | flw | sw | fsw =>
    simp only [rvop, Code.exec]
    split <;> rfl
  case addi | lui | srli | srai | andi | sub | xor | or | and | slli | add | ebreak => rfl
  all_goals cases hop

end Rv32emu
