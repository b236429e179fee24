import Rv32emu.Isa

/-!
# Decoding inverts encoding

* `opLoad_word`, … : the handlers in terms of the fields of a word;
* `Encoding.selects` : the selections of the decoder on the fixed fields of a line of the tables give its
  opcode; `isaTable_selects`, by computation over the tables;
* `rvDecode_encode_iff` : every instruction is decoded to its node, but for writes to the CSRs
  0x800 to 0xbff.
-/

namespace Rv32emu

/-! ## Handlers on fields -/

section Handlers

variable (f : WordFields) (system extC : Bool)

theorem rvDecodeInto_word : rvDecodeInto system extC {} f.word = rvJumpTable system {} f.word := by
  unfold rvDecodeInto
  rw [f.isCompressed_word, Bool.and_false]
  rfl

/-- The node with the fields of an I-type word. -/
def WordFields.itype : Insn := { rd := f.rd, rs1 := f.rs1, imm := f.imm.signExtend 32 }

/-- The node with the fields of an R-type word. -/
def WordFields.rtype : Insn := { rd := f.rd, rs1 := f.rs1, rs2 := f.rs2 }

/-- The node with the fields of an S-type word. -/
def WordFields.stype : Insn := { rs1 := f.rs1, rs2 := f.rs2, imm := (f.funct7 ++ f.rd : BitVec 12).signExtend 32 }

/-- The node with the fields of a U-type word. -/
def WordFields.utype : Insn := { rd := f.rd, imm := f.funct7 ++ f.rs2 ++ f.rs1 ++ f.funct3 ++ 0#12 }

/-- The node with the fields of an R4-type word. -/
def WordFields.r4type : Insn :=
  { f.rtype with imm := (f.funct7.extractLsb' 2 5).setWidth 32, rm := f.funct3.setWidth 8 }

theorem decodeItype_word : decodeItype {} f.word = f.itype := by
  rw [decodeItype, f.decodeItypeImm_word, f.decodeRs1_word, f.decodeRd_word, WordFields.itype]

theorem decodeRtype_word : decodeRtype {} f.word = f.rtype := by
  rw [decodeRtype, f.decodeRs2_word, f.decodeRs1_word, f.decodeRd_word, WordFields.rtype]

theorem decodeStype_word : decodeStype {} f.word = f.stype := by
  rw [decodeStype, f.decodeStypeImm_word, f.decodeRs2_word, f.decodeRs1_word, WordFields.stype]

theorem decodeUtype_word : decodeUtype {} f.word = f.utype := by
  rw [decodeUtype, f.decodeUtypeImm_word, f.decodeRd_word, WordFields.utype]

theorem decodeR4type_word : decodeR4type {} f.word = f.r4type := by
  rw [decodeR4type, f.decodeRd_word, f.decodeRs1_word, f.decodeRs2_word, f.decodeFunct3_word,
    f.word_ushiftRight_27, BitVec.ofNat_toNat, WordFields.r4type, WordFields.rtype]
  simp

theorem opOp_word :
    opOp {} f.word = if f.rd = 0 then .ok f.rtype
      else .select f.rtype (opcodeOfOp f.rs2 f.funct3.toNat f.funct7.toNat) := by
  rw [opOp, decodeRtype_word, f.decodeFunct3_word, f.decodeFunct7_word]
  rfl

theorem opOpImm_word :
    opOpImm {} f.word = if f.rd = 0 then .ok f.itype
      else match opcodeOfOpImm (f.imm.signExtend 32) f.funct3.toNat with
        | some op => .ok { f.itype with opcode := op }
        | none => .illegal { f.itype with opcode := if f.funct3.toNat = 1 then .slli else .srai } := by
  rw [opOpImm, decodeItype_word, f.decodeFunct3_word]
  rfl

theorem opAmo_word : opAmo {} f.word = .select f.rtype (opcodeOfAmo (f.funct7.toNat / 4)) := by
  rw [opAmo, decodeRtype_word, f.decodeFunct7_word]

theorem opOpFp_word :
    opOpFp {} f.word = .select { f.rtype with rm := f.funct3.setWidth 8 }
      (opcodeOfOpFp f.funct3.toNat f.rs2 f.funct7.toNat) := by
  rw [opOpFp, decodeRtype_word, f.decodeFunct3_word, f.decodeFunct7_word]
  simp only [BitVec.ofNat_toNat]
  rfl

theorem opSystem_word :
    opSystem system {} f.word =
      match opcodeOfSystem system f.word (f.imm.signExtend 32) f.funct3.toNat with
      | some op =>
        if csrIsWritable (f.imm.signExtend 32) || f.rs1 = 0 then .ok { f.itype with opcode := op }
        else .illegal { f.itype with opcode := op }
      | none => .illegal f.itype := by
  rw [opSystem, decodeItype_word, f.decodeFunct3_word]
  rfl

/-- `funct7` tells `sfence.vma` from the other instructions without `funct3`. -/
theorem word_sfence_iff : f.word >>> 25 = 0b0001001 ↔ f.funct7 = 0b0001001 := by
  rw [f.word_ushiftRight_25]
  constructor
  · intro h
    have hnat := congrArg BitVec.toNat h
    rw [BitVec.toNat_setWidth] at hnat
    apply BitVec.eq_of_toNat_eq
    have hlt := f.funct7.isLt
    simpa [Nat.mod_eq_of_lt (show f.funct7.toNat < 4294967296 by omega)] using hnat
  · intro h
    rw [h]
    rfl

end Handlers

/-! ## Selections -/

/-- The decoder selects `op` by the fixed fields, whatever the operands are. -/
def Encoding.selects (system : Bool) (op : Opcode) : Encoding → Bool
  | .op funct7 funct3 => ∀ rs2, opcodeOfOp rs2 funct3.toNat funct7.toNat = some op
  | .opUnary funct7 rs2 funct3 => opcodeOfOp rs2 funct3.toNat funct7.toNat = some op
  | .opImm funct3 => funct3 ≠ 1 ∧ funct3 ≠ 5 ∧ opcodeOfOpImm 0 funct3.toNat = some op
  | .opImmShift funct7 funct3 => ∀ shamt : BitVec 5,
      opcodeOfOpImm ((funct7 ++ shamt : BitVec 12).signExtend 32) funct3.toNat = some op
  | .opImmUnary imm funct3 => opcodeOfOpImm (imm.signExtend 32) funct3.toNat = some op
  | .lui => op = .lui
  | .auipc => op = .auipc
  | .jal => op = .jal
  | .jalr => op = .jalr
  | .branch funct3 => opcodeOfBranch funct3.toNat = some op
  | .load funct3 => opcodeOfLoad funct3.toNat = some op
  | .store funct3 => opcodeOfStore funct3.toNat = some op
  | .amo funct5 => opcodeOfAmo funct5.toNat = some op
  | .lr => op = .lrw
  | .loadFp => op = .flw
  | .storeFp => op = .fsw
  | .fp funct7 => ∀ (rm : BitVec 3) rs2, opcodeOfOpFp rm.toNat rs2 funct7.toNat = some op
  | .fpFunct funct7 rm => ∀ rs2, opcodeOfOpFp rm.toNat rs2 funct7.toNat = some op
  | .fpUnary funct7 rs2 => ∀ rm : BitVec 3, opcodeOfOpFp rm.toNat rs2 funct7.toNat = some op
  | .fpMove funct7 rm => opcodeOfOpFp rm.toNat 0 funct7.toNat = some op
  | .fma opcode => (opcode, op) ∈ [(0b10000, Opcode.fmadds), (0b10001, .fmsubs), (0b10010, .fnmsubs),
      (0b10011, .fnmadds)]
  | .fence funct3 => (funct3, op) ∈ [(0, Opcode.fence), (1, .fencei)]
  | .csr funct3 => funct3 ≠ 0 ∧ opcodeOfSystem system 0 0 funct3.toNat = some op
  | .trap imm => imm.extractLsb' 5 7 ≠ 0b0001001 ∧ opcodeOfSystem system 0 (imm.signExtend 32) 0 = some op
  | .sfence => op = .sfencevma

/-- **The tables and the selections agree.** -/
theorem isaTable_selects (system : Bool) : ∀ row ∈ isaTable system, row.2.selects system row.1 = true := by
  cases system <;> decide +kernel

/-! ## Every instruction is decoded -/

section Encode

theorem imm_extract (imm : BitVec 12) : (imm.extractLsb' 5 7 ++ imm.extractLsb' 0 5 : BitVec 12) = imm := by
  apply BitVec.eq_of_getLsbD_eq
  intro i hi
  have hi' : i < 12 := hi
  simp only [BitVec.getLsbD_append, BitVec.getLsbD_extractLsb']
  interval_cases i <;> simp

theorem imm20_extract (imm : BitVec 20) :
    (imm.extractLsb' 13 7 ++ imm.extractLsb' 8 5 ++ imm.extractLsb' 3 5 ++ imm.extractLsb' 0 3 ++ 0#12 : Word) =
      imm ++ 0#12 := by
  apply BitVec.eq_of_getLsbD_eq
  intro i hi
  have hi' : i < 32 := hi
  simp only [BitVec.getLsbD_append, BitVec.getLsbD_extractLsb']
  interval_cases i <;> simp

variable {op : Opcode} {enc : Encoding} {system extC : Bool}

theorem branchOffset_fields (o : Operands) (funct3 : BitVec 3) :
    ((Encoding.branch funct3).fields o).branchOffset = o.imm ++ 0#1 := by
  unfold WordFields.branchOffset Encoding.fields
  apply BitVec.eq_of_getLsbD_eq
  intro i hi
  have hi' : i < 13 := hi
  simp only [BitVec.getLsbD_append, BitVec.getLsbD_extractLsb']
  interval_cases i <;> simp

theorem jumpOffset_fields (o : Operands) : (Encoding.jal.fields o).jumpOffset = o.imm20 ++ 0#1 := by
  unfold WordFields.jumpOffset Encoding.fields
  apply BitVec.eq_of_getLsbD_eq
  intro i hi
  have hi' : i < 21 := hi
  simp only [BitVec.getLsbD_append, BitVec.getLsbD_extractLsb']
  interval_cases i <;> simp

theorem opcodeOfOpImm_const {funct3 : BitVec 3} (h1 : funct3 ≠ 1) (h5 : funct3 ≠ 5) (imm imm' : Word) :
    opcodeOfOpImm imm funct3.toNat = opcodeOfOpImm imm' funct3.toNat := by
  unfold opcodeOfOpImm
  split <;> first
    | rfl
    | (exfalso; rename_i h; exact h1 (BitVec.eq_of_toNat_eq h))
    | (exfalso; rename_i h; exact h5 (BitVec.eq_of_toNat_eq h))

variable {o : Operands}

theorem decode_op_word {f : WordFields} (hopc : f.opcode = 0b01100)
    (hop : opcodeOfOp f.rs2 f.funct3.toNat f.funct7.toNat = some op) (hrd : f.rd ≠ 0) :
    rvJumpTable system {} f.word = .ok { f.rtype with opcode := op } := by
  rw [rvJumpTable, f.decodeOpcode_word, hopc]
  change opOp {} _ = _
  rw [opOp_word, if_neg hrd, hop]
  rfl

theorem decode_opImm_word {f : WordFields} (hopc : f.opcode = 0b00100)
    (hop : opcodeOfOpImm (f.imm.signExtend 32) f.funct3.toNat = some op) (hrd : f.rd ≠ 0) :
    rvJumpTable system {} f.word = .ok { f.itype with opcode := op } := by
  rw [rvJumpTable, f.decodeOpcode_word, hopc]
  change opOpImm {} _ = _
  rw [opOpImm_word, if_neg hrd, hop]

theorem decode_fp_word {f : WordFields} (hopc : f.opcode = 0b10100)
    (hop : opcodeOfOpFp f.funct3.toNat f.rs2 f.funct7.toNat = some op) :
    rvJumpTable system {} f.word = .ok { f.rtype with opcode := op, rm := f.funct3.setWidth 8 } := by
  rw [rvJumpTable, f.decodeOpcode_word, hopc]
  change opOpFp {} _ = _
  rw [opOpFp_word, hop]
  rfl

theorem decode_amo_word {f : WordFields} {f5 : BitVec 5} {aqrl : BitVec 2} (hopc : f.opcode = 0b01011)
    (hf7 : f.funct7 = f5 ++ aqrl) (hop : opcodeOfAmo f5.toNat = some op) :
    rvJumpTable system {} f.word = .ok { f.rtype with opcode := op } := by
  have hf5 : f.funct7.toNat / 4 = f5.toNat := by
    rw [hf7, BitVec.toNat_append]
    have hlt := aqrl.isLt
    rw [← Nat.shiftLeft_add_eq_or_of_lt hlt, Nat.shiftLeft_eq]
    omega
  rw [rvJumpTable, f.decodeOpcode_word, hopc]
  change opAmo {} _ = _
  rw [opAmo_word, hf5, hop]
  rfl

theorem decode_system_word {f : WordFields} (hopc : f.opcode = 0b11100)
    (hop : opcodeOfSystem system f.word (f.imm.signExtend 32) f.funct3.toNat = some op) :
    rvJumpTable system {} f.word =
      if csrIsWritable (f.imm.signExtend 32) || f.rs1 = 0 then .ok { f.itype with opcode := op }
      else .illegal { f.itype with opcode := op } := by
  rw [rvJumpTable, f.decodeOpcode_word, hopc]
  change opSystem system {} _ = _
  rw [opSystem_word, hop]

/-- Without `sfence.vma` the word itself is not looked at. -/
theorem opcodeOfSystem_word {f : WordFields} (h : f.funct7 ≠ 0b0001001) (imm : Word) (n : Nat) :
    opcodeOfSystem system f.word imm n = opcodeOfSystem system 0 imm n := by
  have hword : ¬ f.word >>> 25 = 0b0001001 := fun hw => h ((word_sfence_iff f).mp hw)
  have hzero : ¬ (0 : Word) >>> 25 = 0b0001001 := by decide
  unfold opcodeOfSystem
  rw [if_neg hword, if_neg hzero]

/-- The CSR instructions are selected by `funct3` alone. -/
theorem opcodeOfSystem_csr {f3 : BitVec 3} (h : f3 ≠ 0) (insn insn' imm imm' : Word) :
    opcodeOfSystem system insn imm f3.toNat = opcodeOfSystem system insn' imm' f3.toNat := by
  unfold opcodeOfSystem
  split <;> first
    | rfl
    | (exfalso; rename_i h0; exact h (BitVec.eq_of_toNat_eq h0))

/-- `csr_is_writable` sees the number of the CSR sign-extended. -/
theorem csrIsWritable_signExtend : ∀ csr : BitVec 12,
    csrIsWritable (csr.signExtend 32) = decide (csr.toNat < 0x800) := by
  decide +kernel

/-- The immediate of an I-type instruction is read back. -/
theorem imm_mk (imm : BitVec 12) (rs1 rd : Reg) (f3 : BitVec 3) (opc : BitVec 5) :
    (WordFields.mk (imm.extractLsb' 5 7) (imm.extractLsb' 0 5) rs1 f3 rd opc).imm = imm := imm_extract imm

theorem itype_mk (imm : BitVec 12) (rs1 rd : Reg) (f3 : BitVec 3) (opc : BitVec 5) :
    (WordFields.mk (imm.extractLsb' 5 7) (imm.extractLsb' 0 5) rs1 f3 rd opc).itype =
      { rd, rs1, imm := imm.signExtend 32 } := by
  rw [WordFields.itype, imm_mk]

theorem stype_mk (imm : BitVec 12) (rs2 rs1 : Reg) (f3 : BitVec 3) (opc : BitVec 5) :
    (WordFields.mk (imm.extractLsb' 5 7) rs2 rs1 f3 (imm.extractLsb' 0 5) opc).stype =
      { rs1, rs2, imm := imm.signExtend 32 } := by
  rw [WordFields.stype, imm_extract]

theorem utype_mk (imm : BitVec 20) (rd : Reg) (opc : BitVec 5) :
    (WordFields.mk (imm.extractLsb' 13 7) (imm.extractLsb' 8 5) (imm.extractLsb' 3 5) (imm.extractLsb' 0 3) rd
      opc).utype = { rd, imm := imm ++ 0#12 } := by
  rw [WordFields.utype, imm20_extract]

/-- Outside OP, OP-IMM, LUI and AUIPC the destination may be `x0`. -/
def Encoding.isComputation : Encoding → Bool
  | .op .. | .opUnary .. | .opImm _ | .opImmShift .. | .opImmUnary .. | .lui | .auipc => true
  | _ => false

def Encoding.isCsr : Encoding → Bool
  | .csr _ => true
  | _ => false

/-- **Every instruction but a CSR access is decoded to its node.** -/
theorem decode_fields (hsel : enc.selects system op = true) (hrd : enc.isComputation = true → o.rd ≠ 0)
    (hcsr : enc.isCsr = false) : rvJumpTable system {} (enc.fields o).word = .ok (enc.node op o) := by
  cases enc with
  | op f7 f3 => exact decode_op_word rfl (of_decide_eq_true hsel o.rs2) (hrd rfl)
  | opUnary f7 rs2 f3 => exact decode_op_word rfl (of_decide_eq_true hsel) (hrd rfl)
  | opImm f3 =>
    obtain ⟨h1, h5, hop⟩ := of_decide_eq_true hsel
    rw [decode_opImm_word rfl ((opcodeOfOpImm_const h1 h5 _ 0).trans hop) (hrd rfl), Encoding.fields, itype_mk,
      Encoding.node]
  | opImmShift f7 f3 => exact decode_opImm_word rfl (of_decide_eq_true hsel o.shamt) (hrd rfl)
  | opImmUnary imm f3 =>
    have hop : opcodeOfOpImm (imm.signExtend 32) f3.toNat = some op := of_decide_eq_true hsel
    rw [Encoding.fields, decode_opImm_word rfl (by rw [imm_mk]; exact hop) (hrd rfl), itype_mk, Encoding.node]
  | amo f5 => exact decode_amo_word rfl rfl (of_decide_eq_true hsel)
  | lr =>
    obtain rfl : op = .lrw := of_decide_eq_true hsel
    exact decode_amo_word rfl rfl rfl
  | fp f7 => exact decode_fp_word rfl (of_decide_eq_true hsel o.rm o.rs2)
  | fpFunct f7 rm => exact decode_fp_word rfl (of_decide_eq_true hsel o.rs2)
  | fpUnary f7 rs2 => exact decode_fp_word rfl (of_decide_eq_true hsel o.rm)
  | fpMove f7 rm => exact decode_fp_word rfl (of_decide_eq_true hsel)
  | lui =>
    obtain rfl : op = .lui := of_decide_eq_true hsel
    rw [rvJumpTable, WordFields.decodeOpcode_word]
    change opLui {} _ = _
    rw [opLui, decodeUtype_word, Encoding.fields, utype_mk]
    exact if_neg (hrd rfl)
  | auipc =>
    obtain rfl : op = .auipc := of_decide_eq_true hsel
    rw [rvJumpTable, WordFields.decodeOpcode_word]
    change opAuipc {} _ = _
    rw [opAuipc, decodeUtype_word, Encoding.fields, utype_mk]
    exact if_neg (hrd rfl)
  | jal =>
    obtain rfl : op = .jal := of_decide_eq_true hsel
    rw [rvJumpTable, WordFields.decodeOpcode_word]
    change opJal {} _ = _
    rw [opJal, decodeJtype, WordFields.decodeJtypeImm_word, jumpOffset_fields, WordFields.decodeRd_word]
    rfl
  | jalr =>
    obtain rfl : op = .jalr := of_decide_eq_true hsel
    rw [rvJumpTable, WordFields.decodeOpcode_word]
    change opJalr {} _ = _
    rw [opJalr, decodeItype_word, Encoding.fields, itype_mk, Encoding.node]
  | branch f3 =>
    have hop : opcodeOfBranch f3.toNat = some op := of_decide_eq_true hsel
    rw [rvJumpTable, WordFields.decodeOpcode_word]
    change opBranch {} _ = _
    rw [opBranch, decodeBtype, WordFields.decodeBtypeImm_word, branchOffset_fields, WordFields.decodeRs2_word,
      WordFields.decodeRs1_word, WordFields.decodeFunct3_word]
    change Decoded.select _ (opcodeOfBranch f3.toNat) = _
    rw [hop]
    rfl
  | load f3 =>
    have hop : opcodeOfLoad f3.toNat = some op := of_decide_eq_true hsel
    rw [rvJumpTable, WordFields.decodeOpcode_word]
    change opLoad {} _ = _
    rw [opLoad, decodeItype_word, WordFields.decodeFunct3_word, Encoding.fields, itype_mk]
    change Decoded.select _ (opcodeOfLoad f3.toNat) = _
    rw [hop]
    rfl
  | store f3 =>
    have hop : opcodeOfStore f3.toNat = some op := of_decide_eq_true hsel
    rw [rvJumpTable, WordFields.decodeOpcode_word]
    change opStore {} _ = _
    rw [opStore, decodeStype_word, WordFields.decodeFunct3_word, Encoding.fields, stype_mk]
    change Decoded.select _ (opcodeOfStore f3.toNat) = _
    rw [hop]
    rfl
  | loadFp =>
    obtain rfl : op = .flw := of_decide_eq_true hsel
    rw [rvJumpTable, WordFields.decodeOpcode_word]
    change opLoadFp {} _ = _
    rw [opLoadFp, decodeItype_word, Encoding.fields, itype_mk, Encoding.node]
  | storeFp =>
    obtain rfl : op = .fsw := of_decide_eq_true hsel
    rw [rvJumpTable, WordFields.decodeOpcode_word]
    change opStoreFp {} _ = _
    rw [opStoreFp, decodeStype_word, Encoding.fields, stype_mk, Encoding.node]
  | fma opcode =>
    have hrs3 : (o.rs3 ++ 0b00#2 : BitVec 7).extractLsb' 2 5 = o.rs3 := by
      apply BitVec.eq_of_getLsbD_eq
      intro i hi
      simp only [BitVec.getLsbD_append, BitVec.getLsbD_extractLsb']
      interval_cases i <;> simp
    have hr4 : decodeR4type {} ((Encoding.fma opcode).fields o).word =
        { rd := o.rd, rs1 := o.rs1, rs2 := o.rs2, imm := o.rs3.setWidth 32, rm := o.rm.setWidth 8 } := by
      rw [decodeR4type_word, WordFields.r4type, Encoding.fields, hrs3]
      rfl
    rw [rvJumpTable, WordFields.decodeOpcode_word]
    have hmem := of_decide_eq_true hsel
    simp only [List.mem_cons, List.not_mem_nil, or_false, Prod.mk.injEq] at hmem
    rcases hmem with ⟨rfl, rfl⟩ | ⟨rfl, rfl⟩ | ⟨rfl, rfl⟩ | ⟨rfl, rfl⟩
    · exact congrArg (fun ir : Insn => Decoded.ok { ir with opcode := .fmadds }) hr4
    · exact congrArg (fun ir : Insn => Decoded.ok { ir with opcode := .fmsubs }) hr4
    · exact congrArg (fun ir : Insn => Decoded.ok { ir with opcode := .fnmsubs }) hr4
    · exact congrArg (fun ir : Insn => Decoded.ok { ir with opcode := .fnmadds }) hr4
  | fence f3 =>
    rw [rvJumpTable, WordFields.decodeOpcode_word]
    change opMiscMem {} _ = _
    rw [opMiscMem, WordFields.decodeFunct3_word]
    have hmem := of_decide_eq_true hsel
    simp only [List.mem_cons, List.not_mem_nil, or_false, Prod.mk.injEq] at hmem
    rcases hmem with ⟨rfl, rfl⟩ | ⟨rfl, rfl⟩
    · rfl
    · rfl
  | csr f3 => cases hcsr
  | trap imm =>
    obtain ⟨hne, hop⟩ := of_decide_eq_true hsel
    have hop' : opcodeOfSystem system ((Encoding.trap imm).fields o).word
        (((Encoding.trap imm).fields o).imm.signExtend 32) ((Encoding.trap imm).fields o).funct3.toNat = some op := by
      rw [opcodeOfSystem_word hne, Encoding.fields, imm_mk]
      exact hop
    rw [decode_system_word rfl hop', Encoding.fields, itype_mk]
    exact if_pos (Bool.or_true _)
  | sfence =>
    obtain rfl : op = .sfencevma := of_decide_eq_true hsel
    have hop : opcodeOfSystem system (Encoding.sfence.fields o).word
        ((Encoding.sfence.fields o).imm.signExtend 32) (Encoding.sfence.fields o).funct3.toNat =
          some .sfencevma := if_pos ((word_sfence_iff _).mpr rfl)
    have hwritable : ∀ rs2 : Reg, csrIsWritable ((0b0001001#7 ++ rs2 : BitVec 12).signExtend 32) = true := by
      decide
    rw [decode_system_word rfl hop]
    refine if_pos ?_
    change (csrIsWritable ((0b0001001#7 ++ o.rs2 : BitVec 12).signExtend 32) || _) = true
    rw [hwritable, Bool.true_or]

/-- A CSR instruction is decoded to its node, or refused as a write to a read-only CSR. -/
theorem decode_csr {f3 : BitVec 3} (hsel : (Encoding.csr f3).selects system op = true) :
    rvJumpTable system {} ((Encoding.csr f3).fields o).word =
      if o.imm.toNat < 0x800 ∨ o.rs1 = 0 then .ok ((Encoding.csr f3).node op o)
      else .illegal ((Encoding.csr f3).node op o) := by
  obtain ⟨hne, hop⟩ := of_decide_eq_true hsel
  have hop' : opcodeOfSystem system ((Encoding.csr f3).fields o).word
      (((Encoding.csr f3).fields o).imm.signExtend 32) ((Encoding.csr f3).fields o).funct3.toNat = some op :=
    (opcodeOfSystem_csr hne _ 0 _ 0).trans hop
  rw [decode_system_word rfl hop', Encoding.fields, itype_mk, imm_mk, csrIsWritable_signExtend]
  simp only [Bool.or_eq_true, decide_eq_true_eq]
  rfl

end Encode

def Encoding.WritesHighCsr (o : Operands) (enc : Encoding) : Prop :=
  enc.isCsr = true ∧ o.rs1 ≠ 0 ∧ 0x800 ≤ o.imm.toNat

/-- **Decoding inverts encoding.** For every line of the tables and all operands, with a destination other
than `x0` where the instruction only computes, decoding gives the instruction with its operands, unless it
writes a CSR from 0x800 on; those from 0xc00 on are read-only, those below are not. -/
theorem rvDecode_encode_iff {system extC : Bool} {op : Opcode} {enc : Encoding} (hrow : (op, enc) ∈ isaTable system)
    (o : Operands) (hrd : enc.isComputation = true → o.rd ≠ 0) :
    rvDecodeInto system extC {} (enc.fields o).word = .ok (enc.node op o) ↔ ¬ enc.WritesHighCsr o := by
  have hsel : enc.selects system op = true := isaTable_selects system (op, enc) hrow
  rw [rvDecodeInto_word]
  cases hc : enc.isCsr with
  | false =>
    have hok : rvJumpTable system {} (enc.fields o).word = .ok (enc.node op o) := decode_fields hsel hrd hc
    refine ⟨fun _ hw => ?_, fun _ => hok⟩
    rw [hw.1] at hc
    cases hc
  | true =>
    cases enc with
    | csr f3 =>
      rw [decode_csr hsel]
      unfold Encoding.WritesHighCsr
      split_ifs with h
      · refine ⟨fun _ => ?_, fun _ => rfl⟩
        rintro ⟨-, hrs1, hhigh⟩
        rcases h with h | h
        · omega
        · exact hrs1 h
      · refine ⟨fun heq => ?_, fun hno => ?_⟩
        · cases heq
        · rw [not_or] at h
          exact absurd ⟨hc, h.2, by omega⟩ hno
    | _ => cases hc

/-- `csrrw x0, mcycle, a0`: `mcycle` is 0xb00. -/
def writeMcycle : Operands :=
  { rd := 0, rs1 := 10, rs2 := 0, rs3 := 0, rm := 0, imm := 0xb00, imm20 := 0, shamt := 0, aqrl := 0 }

theorem rvDecode_encode_csrrw :
    (Opcode.csrrw, Encoding.csr 0b001) ∈ isaTable false ∧
      (rvDecodeInto false true {} ((Encoding.csr 0b001).fields writeMcycle).word =
          .ok ((Encoding.csr 0b001).node .csrrw writeMcycle) ↔
        ¬ (Encoding.csr 0b001).WritesHighCsr writeMcycle) :=
  ⟨by decide, rvDecode_encode_iff (by decide) writeMcycle fun h => nomatch h⟩

/-- The write to `mcycle`, a CSR below 0xc00, is refused. -/
theorem rvDecode_refuses_mcycle :
    (Opcode.csrrw, Encoding.csr 0b001) ∈ isaTable false ∧ writeMcycle.imm.toNat < 0xc00 ∧
      ((Encoding.csr 0b001).fields writeMcycle).word = 0xb0051073 ∧
      rvDecodeInto false true {} 0xb0051073 = .illegal ((Encoding.csr 0b001).node .csrrw writeMcycle) := by
  decide

end Rv32emu
