import Rv32emu.Decode
import Mathlib.Tactic.IntervalCases

/-!
# The 32-bit encodings

The encoding tables that `decode.c` carries in the comments of its handlers, with the extensions M, A, F,
Zicsr, Zifencei, Zba, Zbb, Zbc and Zbs, written from the side of the assembler.

* `WordFields`, `WordFields.word`, `WordFields.ofWord` : a 32-bit word and its fields;
* `Operands` : what an instruction is given, each operand with the width it has in the encoding;
* `Encoding` : which fields are fixed and which hold operands; `Encoding.fields`, `Encoding.node`;
* `isaTable` : the tables.
-/

namespace Rv32emu

/-! ## WordFields -/

/-- The fields of an R-type word. The other formats spread their immediates over them. -/
@[ext] structure WordFields where
  funct7 : BitVec 7
  rs2 : Reg
  rs1 : Reg
  funct3 : BitVec 3
  rd : Reg
  /-- `insn[6:2]`. -/
  opcode : BitVec 5
  deriving DecidableEq, Repr

namespace WordFields

def word (f : WordFields) : Word := f.funct7 ++ f.rs2 ++ f.rs1 ++ f.funct3 ++ f.rd ++ f.opcode ++ 3#2

def ofWord (insn : Word) : WordFields where
  funct7 := insn.extractLsb' 25 7
  rs2 := insn.extractLsb' 20 5
  rs1 := insn.extractLsb' 15 5
  funct3 := insn.extractLsb' 12 3
  rd := insn.extractLsb' 7 5
  opcode := insn.extractLsb' 2 5

/-- `imm[11:0]` of an I-type word. -/
def imm (f : WordFields) : BitVec 12 := f.funct7 ++ f.rs2

/-- `imm[12:0]` of a B-type word. -/
def branchOffset (f : WordFields) : BitVec 13 :=
  f.funct7.extractLsb' 6 1 ++ f.rd.extractLsb' 0 1 ++ f.funct7.extractLsb' 0 6 ++ f.rd.extractLsb' 1 4 ++ 0#1

/-- `imm[20:0]` of a J-type word. -/
def jumpOffset (f : WordFields) : BitVec 21 :=
  f.funct7.extractLsb' 6 1 ++ f.rs1 ++ f.funct3 ++ f.rs2.extractLsb' 0 1 ++ f.funct7.extractLsb' 0 6 ++
    f.rs2.extractLsb' 1 4 ++ 0#1

variable (f : WordFields)

/-- Every word that is not compressed has fields. -/
theorem word_ofWord {insn : Word} (h : isCompressed insn = false) : (ofWord insn).word = insn := by
  have hlow : insn &&& 3 = 3 := by simpa [isCompressed] using h
  have h0 : insn.getLsbD 0 = true := by simpa using congrArg (fun w : Word => w.getLsbD 0) hlow
  have h1 : insn.getLsbD 1 = true := by simpa using congrArg (fun w : Word => w.getLsbD 1) hlow
  unfold word ofWord
  apply BitVec.eq_of_getLsbD_eq
  intro i hi
  simp only [BitVec.getLsbD_append, BitVec.getLsbD_extractLsb']
  have hi' : i < 32 := hi
  interval_cases i
  · exact h0.symm
  · exact h1.symm
  all_goals rfl

theorem ofWord_word : ofWord f.word = f := by
  apply WordFields.ext
  all_goals
    simp only [ofWord, word]
    apply BitVec.eq_of_getLsbD_eq
    intro i hi
    simp only [BitVec.getLsbD_extractLsb', BitVec.getLsbD_append]
    interval_cases i <;> simp

theorem isCompressed_word : isCompressed f.word = false := by
  have hlow : f.word &&& 3#32 = 3#32 := by
    apply BitVec.eq_of_getLsbD_eq
    intro i hi
    unfold word
    simp only [BitVec.getLsbD_append, BitVec.getLsbD_and]
    interval_cases i <;> simp
  simp [isCompressed, hlow]

/-! ### What the decoder reads -/

@[simp] theorem decodeRd_word : decodeRd f.word = f.rd := congrArg WordFields.rd f.ofWord_word

@[simp] theorem decodeRs1_word : decodeRs1 f.word = f.rs1 := congrArg WordFields.rs1 f.ofWord_word

@[simp] theorem decodeRs2_word : decodeRs2 f.word = f.rs2 := congrArg WordFields.rs2 f.ofWord_word

@[simp] theorem decodeFunct3_word : decodeFunct3 f.word = f.funct3.toNat :=
  congrArg (fun f => f.funct3.toNat) f.ofWord_word

@[simp] theorem decodeFunct7_word : decodeFunct7 f.word = f.funct7.toNat :=
  congrArg (fun f => f.funct7.toNat) f.ofWord_word

theorem decodeOpcode_word : f.word.extractLsb' 2 5 = f.opcode := congrArg WordFields.opcode f.ofWord_word

@[simp] theorem decodeItypeImm_word : decodeItypeImm f.word = f.imm.signExtend 32 := by
  unfold decodeItypeImm imm word
  apply BitVec.eq_of_getLsbD_eq
  intro i hi
  simp only [BitVec.getLsbD_sshiftRight, BitVec.getLsbD_signExtend, BitVec.msb_eq_getLsbD_last,
    BitVec.getLsbD_and, BitVec.getLsbD_append]
  interval_cases i <;> simp

@[simp] theorem decodeStypeImm_word :
    decodeStypeImm f.word = (f.funct7 ++ f.rd : BitVec 12).signExtend 32 := by
  unfold decodeStypeImm word
  apply BitVec.eq_of_getLsbD_eq
  intro i hi
  simp only [BitVec.getLsbD_sshiftRight, BitVec.getLsbD_signExtend, BitVec.msb_eq_getLsbD_last,
    BitVec.getLsbD_and, BitVec.getLsbD_or, BitVec.getLsbD_shiftLeft, BitVec.getLsbD_append]
  interval_cases i <;> simp

@[simp] theorem decodeBtypeImm_word : decodeBtypeImm f.word = f.branchOffset.signExtend 32 := by
  unfold decodeBtypeImm branchOffset word
  apply BitVec.eq_of_getLsbD_eq
  intro i hi
  simp only [BitVec.getLsbD_sshiftRight, BitVec.getLsbD_signExtend, BitVec.msb_eq_getLsbD_last,
    BitVec.getLsbD_and, BitVec.getLsbD_or, BitVec.getLsbD_shiftLeft, BitVec.getLsbD_ushiftRight,
    BitVec.getLsbD_append, BitVec.getLsbD_extractLsb']
  interval_cases i <;> simp

@[simp] theorem decodeUtypeImm_word :
    decodeUtypeImm f.word = f.funct7 ++ f.rs2 ++ f.rs1 ++ f.funct3 ++ 0#12 := by
  unfold decodeUtypeImm word
  apply BitVec.eq_of_getLsbD_eq
  intro i hi
  have hi' : i < 32 := hi
  simp only [BitVec.getLsbD_and, BitVec.getLsbD_append]
  interval_cases i <;> simp

@[simp] theorem decodeJtypeImm_word : decodeJtypeImm f.word = f.jumpOffset.signExtend 32 := by
  unfold decodeJtypeImm jumpOffset word
  apply BitVec.eq_of_getLsbD_eq
  intro i hi
  simp only [BitVec.getLsbD_sshiftRight, BitVec.getLsbD_signExtend, BitVec.msb_eq_getLsbD_last,
    BitVec.getLsbD_and, BitVec.getLsbD_or, BitVec.getLsbD_shiftLeft, BitVec.getLsbD_ushiftRight,
    BitVec.getLsbD_append, BitVec.getLsbD_extractLsb']
  interval_cases i <;> simp

theorem word_ushiftRight_27 : f.word >>> 27 = (f.funct7.extractLsb' 2 5).setWidth 32 := by
  unfold word
  apply BitVec.eq_of_getLsbD_eq
  intro i hi
  simp only [BitVec.getLsbD_ushiftRight, BitVec.getLsbD_append, BitVec.getLsbD_setWidth,
    BitVec.getLsbD_extractLsb']
  interval_cases i <;> simp

theorem word_ushiftRight_25 : f.word >>> 25 = f.funct7.setWidth 32 := by
  unfold word
  apply BitVec.eq_of_getLsbD_eq
  intro i hi
  simp only [BitVec.getLsbD_ushiftRight, BitVec.getLsbD_append, BitVec.getLsbD_setWidth]
  interval_cases i <;> simp

end WordFields

/-! ## Encodings -/

/-- The operands of an instruction. The widths say what is in range. -/
structure Operands where
  rd : Reg
  rs1 : Reg
  rs2 : Reg
  rs3 : Reg
  rm : BitVec 3
  /-- `imm[11:0]`, the number of a CSR, `imm[12:1]` of a branch, or `fm`, `pred` and `succ`. -/
  imm : BitVec 12
  /-- `imm[31:12]`, or `imm[20:1]` of a jump. -/
  imm20 : BitVec 20
  shamt : BitVec 5
  aqrl : BitVec 2

/-- The lines of the encoding tables, by handler of `decode.c`; the parameters are the fixed fields. -/
inductive Encoding
  | op (funct7 : BitVec 7) (funct3 : BitVec 3)
  /-- `zext.h`. -/
  | opUnary (funct7 : BitVec 7) (rs2 : Reg) (funct3 : BitVec 3)
  | opImm (funct3 : BitVec 3)
  | opImmShift (funct7 : BitVec 7) (funct3 : BitVec 3)
  /-- `clz` and the other instructions of one source whose immediate is fixed. -/
  | opImmUnary (imm : BitVec 12) (funct3 : BitVec 3)
  | lui
  | auipc
  | jal
  | jalr
  | branch (funct3 : BitVec 3)
  | load (funct3 : BitVec 3)
  | store (funct3 : BitVec 3)
  | amo (funct5 : BitVec 5)
  | lr
  | loadFp
  | storeFp
  | fp (funct7 : BitVec 7)
  /-- The rounding mode selects the instruction. -/
  | fpFunct (funct7 : BitVec 7) (rm : BitVec 3)
  /-- `rs2` selects the instruction. -/
  | fpUnary (funct7 : BitVec 7) (rs2 : Reg)
  | fpMove (funct7 : BitVec 7) (rm : BitVec 3)
  | fma (opcode : BitVec 5)
  | fence (funct3 : BitVec 3)
  | csr (funct3 : BitVec 3)
  /-- `ecall` and the other instructions without operands. -/
  | trap (imm : BitVec 12)
  | sfence
  deriving DecidableEq, Repr

namespace Encoding

def fields (o : Operands) : Encoding → WordFields
  | .op funct7 funct3 => ⟨funct7, o.rs2, o.rs1, funct3, o.rd, 0b01100⟩
  | .opUnary funct7 rs2 funct3 => ⟨funct7, rs2, o.rs1, funct3, o.rd, 0b01100⟩
  | .opImm funct3 => ⟨o.imm.extractLsb' 5 7, o.imm.extractLsb' 0 5, o.rs1, funct3, o.rd, 0b00100⟩
  | .opImmShift funct7 funct3 => ⟨funct7, o.shamt, o.rs1, funct3, o.rd, 0b00100⟩
  | .opImmUnary imm funct3 => ⟨imm.extractLsb' 5 7, imm.extractLsb' 0 5, o.rs1, funct3, o.rd, 0b00100⟩
  | .lui => ⟨o.imm20.extractLsb' 13 7, o.imm20.extractLsb' 8 5, o.imm20.extractLsb' 3 5,
      o.imm20.extractLsb' 0 3, o.rd, 0b01101⟩
  | .auipc => ⟨o.imm20.extractLsb' 13 7, o.imm20.extractLsb' 8 5, o.imm20.extractLsb' 3 5,
      o.imm20.extractLsb' 0 3, o.rd, 0b00101⟩
  -- `imm[20|10:1|11|19:12]`, where bit `i` of the operand is `imm[i + 1]`
  | .jal => ⟨o.imm20.extractLsb' 19 1 ++ o.imm20.extractLsb' 4 6,
      o.imm20.extractLsb' 0 4 ++ o.imm20.extractLsb' 10 1, o.imm20.extractLsb' 14 5,
      o.imm20.extractLsb' 11 3, o.rd, 0b11011⟩
  | .jalr => ⟨o.imm.extractLsb' 5 7, o.imm.extractLsb' 0 5, o.rs1, 0b000, o.rd, 0b11001⟩
  -- `imm[12|10:5]` and `imm[4:1|11]`
  | .branch funct3 => ⟨o.imm.extractLsb' 11 1 ++ o.imm.extractLsb' 4 6, o.rs2, o.rs1, funct3,
      o.imm.extractLsb' 0 4 ++ o.imm.extractLsb' 10 1, 0b11000⟩
  | .load funct3 => ⟨o.imm.extractLsb' 5 7, o.imm.extractLsb' 0 5, o.rs1, funct3, o.rd, 0b00000⟩
  | .store funct3 => ⟨o.imm.extractLsb' 5 7, o.rs2, o.rs1, funct3, o.imm.extractLsb' 0 5, 0b01000⟩
  | .amo funct5 => ⟨funct5 ++ o.aqrl, o.rs2, o.rs1, 0b010, o.rd, 0b01011⟩
  | .lr => ⟨0b00010#5 ++ o.aqrl, 0, o.rs1, 0b010, o.rd, 0b01011⟩
  | .loadFp => ⟨o.imm.extractLsb' 5 7, o.imm.extractLsb' 0 5, o.rs1, 0b010, o.rd, 0b00001⟩
  | .storeFp => ⟨o.imm.extractLsb' 5 7, o.rs2, o.rs1, 0b010, o.imm.extractLsb' 0 5, 0b01001⟩
  | .fp funct7 => ⟨funct7, o.rs2, o.rs1, o.rm, o.rd, 0b10100⟩
  | .fpFunct funct7 rm => ⟨funct7, o.rs2, o.rs1, rm, o.rd, 0b10100⟩
  | .fpUnary funct7 rs2 => ⟨funct7, rs2, o.rs1, o.rm, o.rd, 0b10100⟩
  | .fpMove funct7 rm => ⟨funct7, 0, o.rs1, rm, o.rd, 0b10100⟩
  | .fma opcode => ⟨o.rs3 ++ 0b00#2, o.rs2, o.rs1, o.rm, o.rd, opcode⟩
  | .fence funct3 => ⟨o.imm.extractLsb' 5 7, o.imm.extractLsb' 0 5, o.rs1, funct3, o.rd, 0b00011⟩
  | .csr funct3 => ⟨o.imm.extractLsb' 5 7, o.imm.extractLsb' 0 5, o.rs1, funct3, o.rd, 0b11100⟩
  | .trap imm => ⟨imm.extractLsb' 5 7, imm.extractLsb' 0 5, 0, 0b000, 0, 0b11100⟩
  | .sfence => ⟨0b0001001, o.rs2, o.rs1, 0b000, 0, 0b11100⟩

/-- The node that the instruction stands for: its operands with the immediates extended to 32 bits. The
registers that a `fence` names mean nothing. -/
def node (op : Opcode) (o : Operands) : Encoding → Insn
  | .op .. => { opcode := op, rd := o.rd, rs1 := o.rs1, rs2 := o.rs2 }
  | .opUnary _ rs2 _ => { opcode := op, rd := o.rd, rs1 := o.rs1, rs2 }
  | .opImm _ | .jalr | .load _ | .loadFp | .csr _ =>
    { opcode := op, rd := o.rd, rs1 := o.rs1, imm := o.imm.signExtend 32 }
  | .opImmShift funct7 _ =>
    { opcode := op, rd := o.rd, rs1 := o.rs1, imm := (funct7 ++ o.shamt : BitVec 12).signExtend 32 }
  | .opImmUnary imm _ => { opcode := op, rd := o.rd, rs1 := o.rs1, imm := imm.signExtend 32 }
  | .lui | .auipc => { opcode := op, rd := o.rd, imm := o.imm20 ++ 0#12 }
  | .jal => { opcode := op, rd := o.rd, imm := (o.imm20 ++ 0#1).signExtend 32 }
  | .branch _ => { opcode := op, rs1 := o.rs1, rs2 := o.rs2, imm := (o.imm ++ 0#1).signExtend 32 }
  | .store _ | .storeFp => { opcode := op, rs1 := o.rs1, rs2 := o.rs2, imm := o.imm.signExtend 32 }
  | .amo _ => { opcode := op, rd := o.rd, rs1 := o.rs1, rs2 := o.rs2 }
  | .lr => { opcode := op, rd := o.rd, rs1 := o.rs1 }
  | .fp _ => { opcode := op, rd := o.rd, rs1 := o.rs1, rs2 := o.rs2, rm := o.rm.setWidth 8 }
  | .fpFunct _ rm => { opcode := op, rd := o.rd, rs1 := o.rs1, rs2 := o.rs2, rm := rm.setWidth 8 }
  | .fpUnary _ rs2 => { opcode := op, rd := o.rd, rs1 := o.rs1, rs2, rm := o.rm.setWidth 8 }
  | .fpMove _ rm => { opcode := op, rd := o.rd, rs1 := o.rs1, rm := rm.setWidth 8 }
  -- `rs3` shares its storage with `imm`
  | .fma _ => { opcode := op, rd := o.rd, rs1 := o.rs1, rs2 := o.rs2, imm := o.rs3.setWidth 32,
                rm := o.rm.setWidth 8 }
  | .fence _ => { opcode := op }
  | .trap imm => { opcode := op, imm := imm.signExtend 32 }
  | .sfence => { opcode := op, rs1 := o.rs1, imm := (0b0001001#7 ++ o.rs2 : BitVec 12).signExtend 32 }

end Encoding

/-! ## Tables -/

def opRows : List (Opcode × Encoding) :=
  [(.add, .op 0b0000000 0b000), (.sub, .op 0b0100000 0b000), (.sll, .op 0b0000000 0b001),
   (.slt, .op 0b0000000 0b010), (.sltu, .op 0b0000000 0b011), (.xor, .op 0b0000000 0b100),
   (.srl, .op 0b0000000 0b101), (.sra, .op 0b0100000 0b101), (.or, .op 0b0000000 0b110),
   (.and, .op 0b0000000 0b111), (.mul, .op 0b0000001 0b000), (.mulh, .op 0b0000001 0b001),
   (.mulhsu, .op 0b0000001 0b010), (.mulhu, .op 0b0000001 0b011), (.div, .op 0b0000001 0b100),
   (.divu, .op 0b0000001 0b101), (.rem, .op 0b0000001 0b110), (.remu, .op 0b0000001 0b111),
   (.sh1add, .op 0b0010000 0b010), (.sh2add, .op 0b0010000 0b100), (.sh3add, .op 0b0010000 0b110),
   (.andn, .op 0b0100000 0b111), (.orn, .op 0b0100000 0b110), (.xnor, .op 0b0100000 0b100),
   (.max, .op 0b0000101 0b110), (.min, .op 0b0000101 0b100), (.maxu, .op 0b0000101 0b111),
   (.minu, .op 0b0000101 0b101), (.rol, .op 0b0110000 0b001), (.ror, .op 0b0110000 0b101),
   (.clmul, .op 0b0000101 0b001), (.clmulh, .op 0b0000101 0b011), (.clmulr, .op 0b0000101 0b010),
   (.bclr, .op 0b0100100 0b001), (.bext, .op 0b0100100 0b101), (.binv, .op 0b0110100 0b001),
   (.bset, .op 0b0010100 0b001), (.zexth, .opUnary 0b0000100 0 0b100)]

def opImmRows : List (Opcode × Encoding) :=
  [(.addi, .opImm 0b000), (.slti, .opImm 0b010), (.sltiu, .opImm 0b011), (.xori, .opImm 0b100),
   (.ori, .opImm 0b110), (.andi, .opImm 0b111), (.slli, .opImmShift 0b0000000 0b001),
   (.srli, .opImmShift 0b0000000 0b101), (.srai, .opImmShift 0b0100000 0b101),
   (.rori, .opImmShift 0b0110000 0b101), (.bclri, .opImmShift 0b0100100 0b001),
   (.bexti, .opImmShift 0b0100100 0b101), (.binvi, .opImmShift 0b0110100 0b001),
   (.bseti, .opImmShift 0b0010100 0b001), (.clz, .opImmUnary 0b011000000000 0b001),
   (.ctz, .opImmUnary 0b011000000001 0b001), (.cpop, .opImmUnary 0b011000000010 0b001),
   (.sextb, .opImmUnary 0b011000000100 0b001), (.sexth, .opImmUnary 0b011000000101 0b001),
   (.orcb, .opImmUnary 0b001010000111 0b101), (.rev8, .opImmUnary 0b011010011000 0b101)]

/-- `op_lui`, `op_auipc`, `op_jal`, `op_jalr` and `op_branch`. -/
def controlRows : List (Opcode × Encoding) :=
  [(.lui, .lui), (.auipc, .auipc), (.jal, .jal), (.jalr, .jalr), (.beq, .branch 0b000),
   (.bne, .branch 0b001), (.blt, .branch 0b100), (.bge, .branch 0b101), (.bltu, .branch 0b110),
   (.bgeu, .branch 0b111)]

/-- `op_load`, `op_store` and `op_misc_mem`. -/
def memoryRows : List (Opcode × Encoding) :=
  [(.lb, .load 0b000), (.lh, .load 0b001), (.lw, .load 0b010), (.lbu, .load 0b100), (.lhu, .load 0b101),
   (.sb, .store 0b000), (.sh, .store 0b001), (.sw, .store 0b010), (.fence, .fence 0b000),
   (.fencei, .fence 0b001)]

def amoRows : List (Opcode × Encoding) :=
  [(.lrw, .lr), (.scw, .amo 0b00011), (.amoswapw, .amo 0b00001), (.amoaddw, .amo 0b00000),
   (.amoxorw, .amo 0b00100), (.amoandw, .amo 0b01100), (.amoorw, .amo 0b01000), (.amominw, .amo 0b10000),
   (.amomaxw, .amo 0b10100), (.amominuw, .amo 0b11000), (.amomaxuw, .amo 0b11100)]

/-- `op_load_fp`, `op_store_fp`, the fused multiply-adds and `op_op_fp`. -/
def fpRows : List (Opcode × Encoding) :=
  [(.flw, .loadFp), (.fsw, .storeFp), (.fmadds, .fma 0b10000), (.fmsubs, .fma 0b10001),
   (.fnmsubs, .fma 0b10010), (.fnmadds, .fma 0b10011), (.fadds, .fp 0b0000000), (.fsubs, .fp 0b0000100),
   (.fmuls, .fp 0b0001000), (.fdivs, .fp 0b0001100), (.fsqrts, .fpUnary 0b0101100 0),
   (.fsgnjs, .fpFunct 0b0010000 0b000), (.fsgnjns, .fpFunct 0b0010000 0b001),
   (.fsgnjxs, .fpFunct 0b0010000 0b010), (.fmins, .fpFunct 0b0010100 0b000),
   (.fmaxs, .fpFunct 0b0010100 0b001), (.feqs, .fpFunct 0b1010000 0b010),
   (.flts, .fpFunct 0b1010000 0b001), (.fles, .fpFunct 0b1010000 0b000), (.fcvtws, .fpUnary 0b1100000 0),
   (.fcvtwus, .fpUnary 0b1100000 1), (.fcvtsw, .fpUnary 0b1101000 0), (.fcvtswu, .fpUnary 0b1101000 1),
   (.fmvwx, .fpMove 0b1111000 0b000), (.fmvxw, .fpMove 0b1110000 0b000),
   (.fclasss, .fpMove 0b1110000 0b001)]

/-- `op_system`. `sret` belongs to the `SYSTEM` builds; `uret` and `hret` are encodings of no extension. -/
def systemRows (system : Bool) : List (Opcode × Encoding) :=
  [(.csrrw, .csr 0b001), (.csrrs, .csr 0b010), (.csrrc, .csr 0b011), (.csrrwi, .csr 0b101),
   (.csrrsi, .csr 0b110), (.csrrci, .csr 0b111), (.ecall, .trap 0), (.ebreak, .trap 1),
   (.wfi, .trap 0x105), (.mret, .trap 0x302), (.sfencevma, .sfence)] ++
    if system then [(.sret, .trap 0x102)] else []

/-- The 32-bit instruction set. -/
def isaTable (system : Bool) : List (Opcode × Encoding) :=
  opRows ++ opImmRows ++ controlRows ++ memoryRows ++ amoRows ++ fpRows ++ systemRows system

end Rv32emu
