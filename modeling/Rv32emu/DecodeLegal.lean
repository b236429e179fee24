import Rv32emu.DecodeIsa

/-!
# What the decoder accepts

A handler of `decode.c` looks at the fields that it needs to tell its instructions apart. Where a fixed field
is not among them, words that are no instruction are decoded as one.

* `Legal` : a word that the tables define;
* `WordFields.Lenient` : the handler leaves a field of such a word unchecked;
* `rvDecode_rejects_iff` : a word that is no instruction is rejected unless it is lenient.
-/

namespace Rv32emu

/-- The word is an instruction of the tables. -/
def Legal (system : Bool) (insn : Word) : Prop :=
  ∃ row ∈ isaTable system, ∃ o, (row.2.fields o).word = insn

/-- The selectors of the SYSTEM instructions without `funct3`. -/
def WordFields.SystemSelector (system : Bool) (f : WordFields) : Prop :=
  f.funct7 = 0b0001001 ∨ f.imm = 0 ∨ f.imm = 1 ∨ f.imm = 0x105 ∨ f.imm = 0x302 ∨ (system = true ∧ f.imm = 0x102)

/-- The handlers that leave fields unchecked, and the words for which they do. -/
def WordFields.Lenient (system : Bool) (f : WordFields) : Prop :=
  match f.opcode.toNat with
  -- OP-IMM: nothing is checked for `x0`, and of `funct7` of a shift only the lowest bit
  | 0b00100 => f.rd = 0 ∨ f.funct7.getLsbD 0 = false
  -- OP: nothing is checked for `x0`, and `funct3` of `zext.h` is not
  | 0b01100 => f.rd = 0 ∨ (f.funct7 = 0b0000100 ∧ f.rs2 = 0)
  -- `funct3` of `jalr`, `flw` and `fsw`, and `fmt` of the fused multiply-adds
  | 0b11001 | 0b00001 | 0b01001 | 0b10000 | 0b10001 | 0b10010 | 0b10011 => True
  -- `funct3`, and `rs2` of `lr.w`
  | 0b01011 => f.funct7.extractLsb' 2 5 ∈ [(0b00010 : BitVec 5), 0b00011, 0b00001, 0b00000, 0b00100, 0b01100,
      0b01000, 0b10000, 0b10100, 0b11000, 0b11100]
  -- `rs2` of `fsqrt.s`, `fmv.x.w`, `fclass.s` and `fmv.w.x`, and `rm` of the last
  | 0b10100 => f.funct7 = 0b0101100 ∨ f.funct7 = 0b1111000 ∨
      (f.funct7 = 0b1110000 ∧ (f.funct3 = 0 ∨ f.funct3 = 1))
  -- `rd` and `rs1` of the instructions without operands, and `rd` of `sfence.vma`
  | 0b11100 => f.funct3 = 0 ∧ f.SystemSelector system
  | _ => False

section Accept

variable {f : WordFields} {system : Bool}

/-- A row of the tables whose fields are those of the word. -/
theorem legal_of_row {op : Opcode} {enc : Encoding} (hrow : (op, enc) ∈ isaTable system) (o : Operands)
    (h : enc.fields o = f) : Legal system f.word := ⟨(op, enc), hrow, o, congrArg WordFields.word h⟩

theorem mem_isaTable {row : Opcode × Encoding}
    (h : row ∈ opRows ∨ row ∈ opImmRows ∨ row ∈ controlRows ∨ row ∈ memoryRows ∨ row ∈ amoRows ∨ row ∈ fpRows ∨
      row ∈ systemRows system) : row ∈ isaTable system := by
  simp only [isaTable, List.mem_append]
  tauto

/-- The two parts of a 12-bit immediate. -/
theorem append_fields (a : BitVec 7) (b : Reg) :
    (a ++ b : BitVec 12).extractLsb' 5 7 = a ∧ (a ++ b : BitVec 12).extractLsb' 0 5 = b := by
  constructor
  all_goals
    apply BitVec.eq_of_getLsbD_eq
    intro i hi
    simp only [BitVec.getLsbD_extractLsb', BitVec.getLsbD_append]
    interval_cases i <;> simp

def WordFields.operands (f : WordFields) (imm : BitVec 12) (imm20 : BitVec 20) : Operands :=
  { rd := f.rd, rs1 := f.rs1, rs2 := f.rs2, rs3 := 0, rm := f.funct3, imm, imm20, shamt := f.rs2, aqrl := 0 }

/-- What `op_op` selects is a row, but for `zext.h`. -/
theorem opcodeOfOp_row {rs2 : Reg} {f3 : BitVec 3} {f7 : BitVec 7} {op : Opcode}
    (h : opcodeOfOp rs2 f3.toNat f7.toNat = some op) (h7 : f7 ≠ 0b0000100) : (op, .op f7 f3) ∈ opRows := by
  have hrs2 : opcodeOfOp rs2 f3.toNat f7.toNat = opcodeOfOp 0 f3.toNat f7.toNat := by
    unfold opcodeOfOp
    split <;> first
      | rfl
      | (exfalso; rename_i h4; exact h7 (BitVec.eq_of_toNat_eq h4))
  have hrows : ∀ (f7 : BitVec 7) (f3 : BitVec 3), f7 ≠ 0b0000100 →
      ∀ op ∈ opcodeOfOp 0 f3.toNat f7.toNat, (op, .op f7 f3) ∈ opRows := by
    decide +kernel
  rw [hrs2] at h
  exact hrows f7 f3 h7 op h

/-- Bit 5 of the immediate of a shift. -/
theorem bit5_iff (imm : Word) : imm &&& 0x20 = 0 ↔ imm.getLsbD 5 = false := by
  constructor
  · intro h
    simpa using congrArg (fun w : Word => w.getLsbD 5) h
  · intro h
    apply BitVec.eq_of_getLsbD_eq
    intro i hi
    rw [BitVec.getLsbD_and]
    by_cases h5 : i = 5
    · rw [h5, h]
      rfl
    · have hbit : (0x20 : Word).getLsbD i = false := by
        interval_cases i <;> first
          | rfl
          | exact absurd rfl h5
      rw [hbit, Bool.and_false]
      exact (BitVec.getLsbD_zero).symm

theorem opcodeOfShift_even {imm : Word} (h : imm.getLsbD 5 = false) :
    (opcodeOfSlli imm).isSome ∧ (opcodeOfSrli imm).isSome := by
  have h0 := (bit5_iff imm).mpr h
  unfold opcodeOfSlli opcodeOfSrli
  constructor
  all_goals
    split_ifs <;> first
      | rfl
      | contradiction

/-- `op_op_imm` checks the lowest bit of `funct7` of a shift, and no instruction has it set. -/
theorem opcodeOfShift_odd {imm : Word} (h : imm.getLsbD 5 = true) :
    opcodeOfSlli imm = none ∧ opcodeOfSrli imm = none := by
  have h0 : imm &&& 0x20 ≠ 0 := by
    rw [Ne, bit5_iff, h]
    decide
  have hconst : ∀ {c : Word}, c.getLsbD 5 = false → imm ≠ c := by
    rintro c hc rfl
    rw [h] at hc
    cases hc
  have hshift : ∀ {c : Word}, c.getLsbD 0 = false → imm.sshiftRight 5 ≠ c := by
    rintro c hc rfl
    rw [BitVec.getLsbD_sshiftRight] at hc
    have hbit : imm.getLsbD 5 = false := by simpa using hc
    rw [h] at hbit
    cases hbit
  unfold opcodeOfSlli opcodeOfSrli
  constructor
  · rw [if_neg (hconst rfl), if_neg (hconst rfl), if_neg (hconst rfl), if_neg (hconst rfl), if_neg (hconst rfl),
      if_neg (hshift rfl), if_neg (hshift rfl), if_neg (hshift rfl), if_pos h0]
  · rw [if_neg (hshift rfl), if_neg (hconst rfl), if_neg (hconst rfl), if_neg (hshift rfl), if_pos h0]

/-- What `op_op_fp` selects is a row, but for the instructions whose `rs2` or `rm` it does not check. -/
theorem opcodeOfOpFp_row : ∀ (f7 : BitVec 7) (f3 : BitVec 3),
    f7 ∉ [0b0101100, 0b1111000, 0b1110000, 0b1100000, 0b1101000] →
      ∀ op ∈ opcodeOfOpFp f3.toNat 0 f7.toNat, (op, .fp f7) ∈ fpRows ∨ (op, .fpFunct f7 f3) ∈ fpRows := by
  decide +kernel

/-- Where a field is left unchecked the word is accepted; elsewhere it is rejected unless it is legal. -/
structure WordFields.Verdict (system : Bool) (f : WordFields) : Prop where
  accepted : f.Lenient system → ∃ ir, rvJumpTable system {} f.word = .ok ir
  rejected : ¬ f.Lenient system → ¬ Legal system f.word → ∃ ir, rvJumpTable system {} f.word = .illegal ir

theorem select_some {ir : Insn} {o : Option Opcode} (h : o.isSome) : ∃ ir', Decoded.select ir o = .ok ir' := by
  obtain ⟨op, rfl⟩ := Option.isSome_iff_exists.mp h
  exact ⟨_, rfl⟩

/-- A selection that gives rows of the tables only. -/
theorem select_of_row {ir : Insn} {o : Option Opcode} (hrow : ∀ op ∈ o, Legal system f.word)
    (hill : ¬ Legal system f.word) : ∃ ir', Decoded.select ir o = .illegal ir' := by
  cases o with
  | none => exact ⟨ir, rfl⟩
  | some op => exact absurd (hrow op rfl) hill

theorem verdict_of {result : Decoded} (hjump : rvJumpTable system {} f.word = result)
    (hok : f.Lenient system → ∃ ir, result = .ok ir)
    (hno : ¬ f.Lenient system → ¬ Legal system f.word → ∃ ir, result = .illegal ir) : f.Verdict system := by
  rw [← hjump] at hok hno
  exact ⟨hok, hno⟩

theorem opOpImm_accepts (h : f.rd = 0 ∨ (opcodeOfOpImm (f.imm.signExtend 32) f.funct3.toNat).isSome) :
    ∃ ir, opOpImm {} f.word = .ok ir := by
  rw [opOpImm_word]
  by_cases hrd : f.rd = 0
  · rw [if_pos hrd]
    exact ⟨_, rfl⟩
  · obtain ⟨op, hop⟩ := Option.isSome_iff_exists.mp (h.resolve_left hrd)
    rw [if_neg hrd, hop]
    exact ⟨_, rfl⟩

theorem verdict_opImm (h : f.opcode = 0b00100) : f.Verdict system := by
  have hlen : f.Lenient system ↔ f.rd = 0 ∨ f.funct7.getLsbD 0 = false := by
    unfold WordFields.Lenient
    rw [h]
    rfl
  have hbit : (f.imm.signExtend 32).getLsbD 5 = f.funct7.getLsbD 0 := by
    unfold WordFields.imm
    simp only [BitVec.getLsbD_signExtend, BitVec.getLsbD_append]
    rfl
  have hjump : rvJumpTable system {} f.word = opOpImm {} f.word := by
    rw [rvJumpTable, f.decodeOpcode_word, h]
    rfl
  have hplain : ∀ f3 : BitVec 3, f3 ≠ 1 → f3 ≠ 5 → ∃ op ∈ opcodeOfOpImm 0 f3.toNat, (op, .opImm f3) ∈ opImmRows := by
    decide +kernel
  by_cases h1 : f.funct3 = 1 ∨ f.funct3 = 5
  · have hshift : opcodeOfOpImm (f.imm.signExtend 32) f.funct3.toNat = opcodeOfSlli (f.imm.signExtend 32) ∨
        opcodeOfOpImm (f.imm.signExtend 32) f.funct3.toNat = opcodeOfSrli (f.imm.signExtend 32) := by
      rcases h1 with h1 | h1
      · rw [h1]
        exact .inl rfl
      · rw [h1]
        exact .inr rfl
    refine verdict_of hjump (fun hl => ?_) fun hl hill => ?_
    · refine opOpImm_accepts ((hlen.mp hl).imp_right fun heven => ?_)
      rw [← hbit] at heven
      obtain ⟨hsl, hsr⟩ := opcodeOfShift_even heven
      rcases hshift with hs | hs
      · rw [hs]
        exact hsl
      · rw [hs]
        exact hsr
    · rw [hlen, not_or, Bool.not_eq_false] at hl
      obtain ⟨hrd, hodd⟩ := hl
      rw [← hbit] at hodd
      obtain ⟨hsl, hsr⟩ := opcodeOfShift_odd hodd
      have hnone : opcodeOfOpImm (f.imm.signExtend 32) f.funct3.toNat = none := by
        rcases hshift with hs | hs
        · exact hs.trans hsl
        · exact hs.trans hsr
      rw [opOpImm_word, if_neg hrd, hnone]
      exact ⟨_, rfl⟩
  · rw [not_or] at h1
    obtain ⟨op, hop, hrow⟩ := hplain f.funct3 h1.1 h1.2
    have hlegal : Legal system f.word := by
      refine legal_of_row (mem_isaTable (.inr (.inl hrow))) (f.operands f.imm 0) ?_
      obtain ⟨h7, h2⟩ := append_fields f.funct7 f.rs2
      exact WordFields.ext h7 h2 rfl rfl rfl h.symm
    refine verdict_of hjump (fun hl => ?_) fun hl hill => absurd hlegal hill
    refine opOpImm_accepts (.inr ?_)
    rw [opcodeOfOpImm_const h1.1 h1.2 _ 0, Option.mem_def.mp hop]
    rfl

theorem verdict_op (h : f.opcode = 0b01100) : f.Verdict system := by
  have hlen : f.Lenient system ↔ f.rd = 0 ∨ (f.funct7 = 0b0000100 ∧ f.rs2 = 0) := by
    unfold WordFields.Lenient
    rw [h]
    rfl
  have hjump : rvJumpTable system {} f.word = opOp {} f.word := by
    rw [rvJumpTable, f.decodeOpcode_word, h]
    rfl
  refine verdict_of hjump (fun hl => ?_) fun hl hill => ?_
  · rw [opOp_word]
    rcases hlen.mp hl with hrd | ⟨h7, h2⟩
    · rw [if_pos hrd]
      exact ⟨_, rfl⟩
    · rw [h7, h2]
      split_ifs
      · exact ⟨_, rfl⟩
      · exact ⟨_, rfl⟩
  · rw [hlen, not_or] at hl
    obtain ⟨hrd, hzexth⟩ := hl
    rw [opOp_word, if_neg hrd]
    refine select_of_row (fun op hop => ?_) hill
    by_cases h7 : f.funct7 = 0b0000100
    · -- only `rs2 = 0` is accepted there
      rw [Option.mem_def, h7] at hop
      have h2 : ¬ f.rs2 = 0 := fun h2 => hzexth ⟨h7, h2⟩
      change (if f.rs2 ≠ 0 then none else some .zexth) = some op at hop
      rw [if_pos h2] at hop
      cases hop
    · refine legal_of_row (mem_isaTable (.inl (opcodeOfOp_row hop h7))) (f.operands 0 0) ?_
      exact WordFields.ext rfl rfl rfl rfl rfl h.symm

theorem verdict_load (h : f.opcode = 0b00000) : f.Verdict system := by
  have hlen : ¬ f.Lenient system := by
    unfold WordFields.Lenient
    rw [h]
    exact id
  have hjump : rvJumpTable system {} f.word = opLoad {} f.word := by
    rw [rvJumpTable, f.decodeOpcode_word, h]
    rfl
  have hrows : ∀ f3 : BitVec 3, ∀ op ∈ opcodeOfLoad f3.toNat, (op, .load f3) ∈ memoryRows := by decide
  refine verdict_of hjump (fun hl => absurd hl hlen) fun _ hill => ?_
  rw [opLoad, f.decodeFunct3_word]
  refine select_of_row (fun op hop => ?_) hill
  refine legal_of_row (mem_isaTable (.inr (.inr (.inr (.inl (hrows f.funct3 op hop)))))) (f.operands f.imm 0) ?_
  obtain ⟨h7, h2⟩ := append_fields f.funct7 f.rs2
  exact WordFields.ext h7 h2 rfl rfl rfl h.symm

theorem verdict_store (h : f.opcode = 0b01000) : f.Verdict system := by
  have hlen : ¬ f.Lenient system := by
    unfold WordFields.Lenient
    rw [h]
    exact id
  have hjump : rvJumpTable system {} f.word = opStore {} f.word := by
    rw [rvJumpTable, f.decodeOpcode_word, h]
    rfl
  have hrows : ∀ f3 : BitVec 3, ∀ op ∈ opcodeOfStore f3.toNat, (op, .store f3) ∈ memoryRows := by decide
  refine verdict_of hjump (fun hl => absurd hl hlen) fun _ hill => ?_
  rw [opStore, f.decodeFunct3_word]
  refine select_of_row (fun op hop => ?_) hill
  refine legal_of_row (mem_isaTable (.inr (.inr (.inr (.inl (hrows f.funct3 op hop))))))
    (f.operands (f.funct7 ++ f.rd) 0) ?_
  obtain ⟨h7, h2⟩ := append_fields f.funct7 f.rd
  exact WordFields.ext h7 rfl rfl rfl h2 h.symm

theorem verdict_branch (h : f.opcode = 0b11000) : f.Verdict system := by
  have hlen : ¬ f.Lenient system := by
    unfold WordFields.Lenient
    rw [h]
    exact id
  have hjump : rvJumpTable system {} f.word = opBranch {} f.word := by
    rw [rvJumpTable, f.decodeOpcode_word, h]
    rfl
  have hrows : ∀ f3 : BitVec 3, ∀ op ∈ opcodeOfBranch f3.toNat, (op, .branch f3) ∈ controlRows := by decide
  refine verdict_of hjump (fun hl => absurd hl hlen) fun _ hill => ?_
  rw [opBranch, f.decodeFunct3_word]
  refine select_of_row (fun op hop => ?_) hill
  refine legal_of_row (mem_isaTable (.inr (.inr (.inl (hrows f.funct3 op hop)))))
    (f.operands (f.funct7.extractLsb' 6 1 ++ f.rd.extractLsb' 0 1 ++ f.funct7.extractLsb' 0 6 ++
      f.rd.extractLsb' 1 4) 0) ?_
  apply WordFields.ext
  case rs2 | rs1 | funct3 => rfl
  case opcode => exact h.symm
  all_goals
    simp only [Encoding.fields, WordFields.operands]
    apply BitVec.eq_of_getLsbD_eq
    intro i hi
    simp only [BitVec.getLsbD_append, BitVec.getLsbD_extractLsb']
    first
      | (have hi' : i < 7 := hi; interval_cases i <;> simp)
      | (have hi' : i < 5 := hi; interval_cases i <;> simp)

theorem legal_utype {op : Opcode} {enc : Encoding} (hrow : (op, enc) ∈ controlRows) (h : enc = .lui ∨ enc = .auipc)
    (hopc : ∀ o, (enc.fields o).opcode = f.opcode) : Legal system f.word := by
  refine legal_of_row (mem_isaTable (.inr (.inr (.inl hrow))))
    (f.operands 0 (f.funct7 ++ f.rs2 ++ f.rs1 ++ f.funct3)) ?_
  have hopc' := hopc (f.operands 0 (f.funct7 ++ f.rs2 ++ f.rs1 ++ f.funct3))
  rcases h with rfl | rfl
  all_goals
    apply WordFields.ext
    case rd => rfl
    case opcode => exact hopc'
    all_goals
      simp only [Encoding.fields, WordFields.operands]
      apply BitVec.eq_of_getLsbD_eq
      intro i hi
      simp only [BitVec.getLsbD_append, BitVec.getLsbD_extractLsb']
      interval_cases i <;> simp

theorem legal_jal (h : f.opcode = 0b11011) : Legal system f.word := by
  have hrow : (Opcode.jal, Encoding.jal) ∈ controlRows := by decide
  refine legal_of_row (mem_isaTable (.inr (.inr (.inl hrow))))
    (f.operands 0 (f.funct7.extractLsb' 6 1 ++ f.rs1 ++ f.funct3 ++ f.rs2.extractLsb' 0 1 ++
      f.funct7.extractLsb' 0 6 ++ f.rs2.extractLsb' 1 4)) ?_
  apply WordFields.ext
  case rd => rfl
  case opcode => exact h.symm
  all_goals
    simp only [Encoding.fields, WordFields.operands]
    apply BitVec.eq_of_getLsbD_eq
    intro i hi
    simp only [BitVec.getLsbD_append, BitVec.getLsbD_extractLsb']
    first
      | (have hi' : i < 7 := hi; interval_cases i <;> simp)
      | (have hi' : i < 5 := hi; interval_cases i <;> simp)
      | (have hi' : i < 3 := hi; interval_cases i <;> simp)

/-- Where every word is legal there is nothing to reject. -/
theorem verdict_of_legal (hlen : ¬ f.Lenient system) (hlegal : Legal system f.word) : f.Verdict system :=
  ⟨fun hl => absurd hl hlen, fun _ hill => absurd hlegal hill⟩

theorem verdict_of_ok (hlen : f.Lenient system) (hok : ∃ ir, rvJumpTable system {} f.word = .ok ir) :
    f.Verdict system := ⟨fun _ => hok, fun hno => absurd hlen hno⟩

theorem verdict_unchecked
    (h : f.opcode ∈ [(0b11001 : BitVec 5), 0b00001, 0b01001, 0b10000, 0b10001, 0b10010, 0b10011]) :
    f.Verdict system := by
  simp only [List.mem_cons, List.not_mem_nil, or_false] at h
  have hlen : f.Lenient system := by
    unfold WordFields.Lenient
    rcases h with h | h | h | h | h | h | h <;> rw [h] <;> trivial
  refine verdict_of_ok hlen ?_
  rw [rvJumpTable, f.decodeOpcode_word]
  rcases h with h | h | h | h | h | h | h <;> rw [h] <;> exact ⟨_, rfl⟩

theorem verdict_miscMem (h : f.opcode = 0b00011) : f.Verdict system := by
  have hlen : ¬ f.Lenient system := by
    unfold WordFields.Lenient
    rw [h]
    exact id
  have hjump : rvJumpTable system {} f.word = opMiscMem {} f.word := by
    rw [rvJumpTable, f.decodeOpcode_word, h]
    rfl
  have hfence : ∀ op, (op, .fence f.funct3) ∈ memoryRows → Legal system f.word := by
    intro op hrow
    refine legal_of_row (mem_isaTable (.inr (.inr (.inr (.inl hrow))))) (f.operands f.imm 0) ?_
    obtain ⟨h7, h2⟩ := append_fields f.funct7 f.rs2
    exact WordFields.ext h7 h2 rfl rfl rfl h.symm
  refine verdict_of hjump (fun hl => absurd hl hlen) fun _ hill => ?_
  rw [opMiscMem, f.decodeFunct3_word]
  split
  · rename_i h0
    have h3 : f.funct3 = 0 := BitVec.eq_of_toNat_eq h0
    exact absurd (hfence .fence (by rw [h3]; decide)) hill
  · rename_i h1
    have h3 : f.funct3 = 1 := BitVec.eq_of_toNat_eq h1
    exact absurd (hfence .fencei (by rw [h3]; decide)) hill
  · exact ⟨_, rfl⟩

theorem verdict_amo (h : f.opcode = 0b01011) : f.Verdict system := by
  have hknown : ∀ f7 : BitVec 7, (opcodeOfAmo (f7.toNat / 4)).isSome ↔
      f7.extractLsb' 2 5 ∈ [(0b00010 : BitVec 5), 0b00011, 0b00001, 0b00000, 0b00100, 0b01100,
        0b01000, 0b10000, 0b10100, 0b11000, 0b11100] := by
    decide +kernel
  have hlen : f.Lenient system ↔ (opcodeOfAmo (f.funct7.toNat / 4)).isSome := by
    rw [hknown]
    unfold WordFields.Lenient
    rw [h]
    rfl
  have hjump : rvJumpTable system {} f.word = opAmo {} f.word := by
    rw [rvJumpTable, f.decodeOpcode_word, h]
    rfl
  refine verdict_of hjump (fun hl => ?_) fun hl _ => ?_
  · rw [opAmo_word]
    exact select_some (hlen.mp hl)
  · rw [hlen, Option.not_isSome_iff_eq_none] at hl
    rw [opAmo_word, hl]
    exact ⟨_, rfl⟩

/-- What `op_op_fp` selects is a row, outside the instructions whose `rs2` or `rm` it leaves unchecked. -/
theorem legal_opFp (h : f.opcode = 0b10100)
    (hlen : ¬ (f.funct7 = 0b0101100 ∨ f.funct7 = 0b1111000 ∨
      (f.funct7 = 0b1110000 ∧ (f.funct3 = 0 ∨ f.funct3 = 1)))) {op : Opcode}
    (hop : opcodeOfOpFp f.funct3.toNat f.rs2 f.funct7.toNat = some op) : Legal system f.word := by
  have hrow : ∀ enc, (op, enc) ∈ fpRows → enc.fields (f.operands 0 0) = f → Legal system f.word :=
    fun enc hmem hf => legal_of_row (mem_isaTable (.inr (.inr (.inr (.inr (.inr (.inl hmem))))))) _ hf
  rw [not_or, not_or] at hlen
  obtain ⟨hsqrt, hmvwx, hmvxw⟩ := hlen
  by_cases hlist : f.funct7 ∈ [(0b0101100 : BitVec 7), 0b1111000, 0b1110000, 0b1100000, 0b1101000]
  · simp only [List.mem_cons, List.not_mem_nil, or_false] at hlist
    rcases hlist with h7 | h7 | h7 | h7 | h7
    · exact absurd h7 hsqrt
    · exact absurd h7 hmvwx
    · -- `fmv.x.w` and `fclass.s` by `rm`
      rw [h7] at hop
      have hnone : ∀ f3 : BitVec 3, f3 ≠ 0 → f3 ≠ 1 → ∀ rs2, opcodeOfOpFp f3.toNat rs2 0b1110000 = none := by
        decide
      have h01 : ¬ (f.funct3 = 0 ∨ f.funct3 = 1) := fun h01 => hmvxw ⟨h7, h01⟩
      rw [not_or] at h01
      have hno := hnone f.funct3 h01.1 h01.2 f.rs2
      rw [show (0b1110000 : BitVec 7).toNat = 0b1110000 from rfl, hno] at hop
      cases hop
    · -- conversions to integers, by `rs2`
      rw [h7] at hop
      change (if f.rs2 = 0 then some Opcode.fcvtws else if f.rs2 = 1 then some .fcvtwus else none) = _ at hop
      split_ifs at hop with h0 h1
      · cases hop
        exact hrow (.fpUnary 0b1100000 0) (by decide) (WordFields.ext h7.symm h0.symm rfl rfl rfl h.symm)
      · cases hop
        exact hrow (.fpUnary 0b1100000 1) (by decide) (WordFields.ext h7.symm h1.symm rfl rfl rfl h.symm)
    · rw [h7] at hop
      change (if f.rs2 = 0 then some Opcode.fcvtsw else if f.rs2 = 1 then some .fcvtswu else none) = _ at hop
      split_ifs at hop with h0 h1
      · cases hop
        exact hrow (.fpUnary 0b1101000 0) (by decide) (WordFields.ext h7.symm h0.symm rfl rfl rfl h.symm)
      · cases hop
        exact hrow (.fpUnary 0b1101000 1) (by decide) (WordFields.ext h7.symm h1.symm rfl rfl rfl h.symm)
  · have hrs2 : opcodeOfOpFp f.funct3.toNat f.rs2 f.funct7.toNat = opcodeOfOpFp f.funct3.toNat 0 f.funct7.toNat := by
      unfold opcodeOfOpFp
      split <;> first
        | rfl
        | (exfalso
           rename_i h7
           refine hlist ?_
           rw [show f.funct7 = _ from BitVec.eq_of_toNat_eq (y := 0b1100000) h7]
           decide)
        | (exfalso
           rename_i h7
           refine hlist ?_
           rw [show f.funct7 = _ from BitVec.eq_of_toNat_eq (y := 0b1101000) h7]
           decide)
    rw [hrs2] at hop
    rcases opcodeOfOpFp_row f.funct7 f.funct3 hlist op hop with hmem | hmem
    · exact hrow _ hmem (WordFields.ext rfl rfl rfl rfl rfl h.symm)
    · exact hrow _ hmem (WordFields.ext rfl rfl rfl rfl rfl h.symm)

theorem verdict_opFp (h : f.opcode = 0b10100) : f.Verdict system := by
  have hlen : f.Lenient system ↔ f.funct7 = 0b0101100 ∨ f.funct7 = 0b1111000 ∨
      (f.funct7 = 0b1110000 ∧ (f.funct3 = 0 ∨ f.funct3 = 1)) := by
    unfold WordFields.Lenient
    rw [h]
    rfl
  have hjump : rvJumpTable system {} f.word = opOpFp {} f.word := by
    rw [rvJumpTable, f.decodeOpcode_word, h]
    rfl
  refine verdict_of hjump (fun hl => ?_) fun hl hill => ?_
  · rw [opOpFp_word]
    rcases hlen.mp hl with h7 | h7 | ⟨h7, h3 | h3⟩
    · rw [h7]
      exact ⟨_, rfl⟩
    · rw [h7]
      exact ⟨_, rfl⟩
    · rw [h7, h3]
      exact ⟨_, rfl⟩
    · rw [h7, h3]
      exact ⟨_, rfl⟩
  · rw [hlen] at hl
    rw [opOpFp_word]
    exact select_of_row (fun op hop => legal_opFp h hl hop) hill

/-- `op_system` knows the selector exactly when it is one of them, and no such selector is the number of a
CSR that it takes for read-only. -/
theorem opcodeOfSystem_zero (f : WordFields) :
    (opcodeOfSystem system f.word (f.imm.signExtend 32) 0).isSome ↔ f.SystemSelector system := by
  have himm : ∀ imm : BitVec 12, (opcodeOfSystem system 0 (imm.signExtend 32) 0).isSome ↔
      imm = 0 ∨ imm = 1 ∨ imm = 0x105 ∨ imm = 0x302 ∨ (system = true ∧ imm = 0x102) := by
    intro imm
    have hext : ∀ c : BitVec 12, imm.signExtend 32 = c.signExtend 32 ↔ imm = c := fun c => by
      refine ⟨fun h => BitVec.eq_of_toInt_eq ?_, congrArg _⟩
      have hint := congrArg BitVec.toInt h
      rwa [BitVec.toInt_signExtend_of_le (by decide), BitVec.toInt_signExtend_of_le (by decide)] at hint
    have hsfence : ¬ (0 : Word) >>> 25 = 0b0001001 := by decide
    have h0 : imm.signExtend 32 = 0 ↔ imm = 0 := hext 0
    have h1 : imm.signExtend 32 = 1 ↔ imm = 1 := hext 1
    have h105 : imm.signExtend 32 = 0x105 ↔ imm = 0x105 := hext 0x105
    have h102 : imm.signExtend 32 = 0x102 ↔ imm = 0x102 := hext 0x102
    have h302 : imm.signExtend 32 = 0x302 ↔ imm = 0x302 := hext 0x302
    rw [opcodeOfSystem, if_neg hsfence]
    simp only [h0, h1, h105, h102, h302]
    split_ifs with ecall ebreak wfi sret mret
    · exact iff_of_true rfl (.inl ecall)
    · exact iff_of_true rfl (.inr (.inl ebreak))
    · exact iff_of_true rfl (.inr (.inr (.inl wfi)))
    · exact iff_of_true rfl (.inr (.inr (.inr (.inr sret))))
    · exact iff_of_true rfl (.inr (.inr (.inr (.inl mret))))
    · refine iff_of_false Bool.false_ne_true fun h => ?_
      rcases h with h | h | h | h | h
      · exact ecall h
      · exact ebreak h
      · exact wfi h
      · exact mret h
      · exact sret h
  unfold WordFields.SystemSelector
  by_cases h7 : f.funct7 = 0b0001001
  · have hsome : opcodeOfSystem system f.word (f.imm.signExtend 32) 0 = some .sfencevma :=
      if_pos ((word_sfence_iff f).mpr h7)
    rw [hsome]
    exact ⟨fun _ => .inl h7, fun _ => rfl⟩
  · rw [opcodeOfSystem_word h7, himm]
    exact ⟨.inr, fun h => h.resolve_left h7⟩

theorem csrIsWritable_selector (h : f.SystemSelector system) : csrIsWritable (f.imm.signExtend 32) = true := by
  have hsfence : ∀ rs2 : Reg, (0b0001001#7 ++ rs2 : BitVec 12).toNat < 0x800 := by decide
  rw [csrIsWritable_signExtend, decide_eq_true_eq]
  rcases h with h7 | h | h | h | h | ⟨-, h⟩
  · rw [WordFields.imm, h7]
    exact hsfence f.rs2
  all_goals
    rw [h]
    decide

/-- Every word that selects a CSR instruction is one. -/
theorem legal_csr (h : f.opcode = 0b11100) {op : Opcode} (h3 : f.funct3 ≠ 0)
    (hop : opcodeOfSystem system f.word (f.imm.signExtend 32) f.funct3.toNat = some op) : Legal system f.word := by
  have hrows : ∀ f3 : BitVec 3, f3 ≠ 0 → ∀ op ∈ opcodeOfSystem system 0 0 f3.toNat,
      (op, .csr f3) ∈ systemRows system := by
    cases system with
    | false => decide
    | true => decide
  rw [opcodeOfSystem_csr h3 _ 0 _ 0] at hop
  have hrow := hrows f.funct3 h3 op hop
  refine legal_of_row (mem_isaTable (.inr (.inr (.inr (.inr (.inr (.inr hrow))))))) (f.operands f.imm 0) ?_
  obtain ⟨h7, h2⟩ := append_fields f.funct7 f.rs2
  exact WordFields.ext h7 h2 rfl rfl rfl h.symm

theorem verdict_system (h : f.opcode = 0b11100) : f.Verdict system := by
  have hlen : f.Lenient system ↔ f.funct3 = 0 ∧ f.SystemSelector system := by
    unfold WordFields.Lenient
    rw [h]
    rfl
  have hjump : rvJumpTable system {} f.word = opSystem system {} f.word := by
    rw [rvJumpTable, f.decodeOpcode_word, h]
    rfl
  refine verdict_of hjump (fun hl => ?_) fun hl hill => ?_
  · obtain ⟨h3, hsel⟩ := hlen.mp hl
    obtain ⟨op, hop⟩ := Option.isSome_iff_exists.mp ((opcodeOfSystem_zero f).mpr hsel)
    have h3' : f.funct3.toNat = 0 := by rw [h3]; rfl
    rw [opSystem_word, h3', hop, csrIsWritable_selector hsel]
    exact ⟨_, rfl⟩
  · rw [opSystem_word]
    cases hop : opcodeOfSystem system f.word (f.imm.signExtend 32) f.funct3.toNat with
    | none => exact ⟨_, rfl⟩
    | some op =>
      exfalso
      by_cases h3 : f.funct3 = 0
      · have h3' : f.funct3.toNat = 0 := by rw [h3]; rfl
        rw [h3'] at hop
        refine hl (hlen.mpr ⟨h3, (opcodeOfSystem_zero f).mp ?_⟩)
        rw [hop]
        rfl
      · exact hill (legal_csr h h3 hop)

theorem verdict_undefined (h : f.opcode ∈ [(0b00010 : BitVec 5), 0b00110, 0b00111, 0b01010, 0b01110, 0b01111,
    0b10101, 0b10110, 0b10111, 0b11010, 0b11101, 0b11110, 0b11111]) : f.Verdict system := by
  simp only [List.mem_cons, List.not_mem_nil, or_false] at h
  have hlen : ¬ f.Lenient system := by
    unfold WordFields.Lenient
    rcases h with h | h | h | h | h | h | h | h | h | h | h | h | h <;> rw [h] <;> exact id
  refine ⟨fun hl => absurd hl hlen, fun _ _ => ⟨{}, ?_⟩⟩
  rw [rvJumpTable, f.decodeOpcode_word]
  rcases h with h | h | h | h | h | h | h | h | h | h | h | h | h <;> rw [h] <;> rfl

/-- **One verdict for each handler.** -/
theorem verdict (f : WordFields) (system : Bool) : f.Verdict system := by
  have hmajor : ∀ opcode : BitVec 5,
      opcode ∈ [(0b11001 : BitVec 5), 0b00001, 0b01001, 0b10000, 0b10001, 0b10010, 0b10011] ∨
      opcode ∈ [(0b00010 : BitVec 5), 0b00110, 0b00111, 0b01010, 0b01110, 0b01111, 0b10101, 0b10110, 0b10111,
        0b11010, 0b11101, 0b11110, 0b11111] ∨
      opcode = 0b00100 ∨ opcode = 0b01100 ∨ opcode = 0b00000 ∨ opcode = 0b01000 ∨ opcode = 0b11000 ∨
      opcode = 0b01101 ∨ opcode = 0b00101 ∨ opcode = 0b11011 ∨ opcode = 0b00011 ∨ opcode = 0b01011 ∨
      opcode = 0b10100 ∨ opcode = 0b11100 := by
    decide
  have hstrict : f.opcode = 0b01101 ∨ f.opcode = 0b00101 ∨ f.opcode = 0b11011 → ¬ f.Lenient system := by
    intro h
    unfold WordFields.Lenient
    rcases h with h | h | h <;> rw [h] <;> exact id
  rcases hmajor f.opcode with h | h | h | h | h | h | h | h | h | h | h | h | h | h
  · exact verdict_unchecked h
  · exact verdict_undefined h
  · exact verdict_opImm h
  · exact verdict_op h
  · exact verdict_load h
  · exact verdict_store h
  · exact verdict_branch h
  · have hlui : (Opcode.lui, Encoding.lui) ∈ controlRows := by decide
    exact verdict_of_legal (hstrict (.inl h)) (legal_utype hlui (.inl rfl) fun _ => h.symm)
  · have hauipc : (Opcode.auipc, Encoding.auipc) ∈ controlRows := by decide
    exact verdict_of_legal (hstrict (.inr (.inl h))) (legal_utype hauipc (.inr rfl) fun _ => h.symm)
  · exact verdict_of_legal (hstrict (.inr (.inr h))) (legal_jal h)
  · exact verdict_miscMem h
  · exact verdict_amo h
  · exact verdict_opFp h
  · exact verdict_system h

end Accept

/-- **A word that is no instruction is rejected unless its handler leaves a wrong field unchecked.** -/
theorem rvDecode_rejects_iff {system extC : Bool} {insn : Word} (h : isCompressed insn = false)
    (hill : ¬ Legal system insn) :
    (∃ ir, rvDecodeInto system extC {} insn = .illegal ir) ↔ ¬ (WordFields.ofWord insn).Lenient system := by
  rw [← WordFields.word_ofWord h, rvDecodeInto_word, WordFields.ofWord_word]
  rw [← WordFields.word_ofWord h] at hill
  have hv := verdict (WordFields.ofWord insn) system
  refine ⟨fun ⟨ir, hir⟩ hl => ?_, fun hl => hv.rejected hl hill⟩
  obtain ⟨ir', hok⟩ := hv.accepted hl
  rw [hok] at hir
  cases hir

/-- The major opcode and `funct3` of the lines of the tables whose `funct3` is fixed. -/
def Encoding.major : Encoding → BitVec 5 × Option (BitVec 3)
  | .op _ funct3 | .opUnary _ _ funct3 => (0b01100, some funct3)
  | .opImm funct3 | .opImmShift _ funct3 | .opImmUnary _ funct3 => (0b00100, some funct3)
  | .lui => (0b01101, none)
  | .auipc => (0b00101, none)
  | .jal => (0b11011, none)
  | .jalr => (0b11001, some 0)
  | .branch funct3 => (0b11000, some funct3)
  | .load funct3 => (0b00000, some funct3)
  | .store funct3 => (0b01000, some funct3)
  | .amo _ | .lr => (0b01011, some 2)
  | .loadFp => (0b00001, some 2)
  | .storeFp => (0b01001, some 2)
  | .fp _ | .fpUnary .. => (0b10100, none)
  | .fpFunct _ rm | .fpMove _ rm => (0b10100, some rm)
  | .fma opcode => (opcode, none)
  | .fence funct3 => (0b00011, some funct3)
  | .csr funct3 => (0b11100, some funct3)
  | .trap _ | .sfence => (0b11100, some 0)

theorem Encoding.major_fields (enc : Encoding) (o : Operands) :
    (enc.fields o).opcode = enc.major.1 ∧ ∀ f3 ∈ enc.major.2, (enc.fields o).funct3 = f3 := by
  cases enc <;> exact ⟨rfl, by rintro f3 ⟨⟩ <;> rfl⟩

/-- A word whose major opcode and `funct3` are those of no line of the tables. -/
theorem not_legal {system : Bool} {insn : Word}
    (h : ∀ row ∈ isaTable system, row.2.major.1 = (WordFields.ofWord insn).opcode →
      ∃ f3 ∈ row.2.major.2, (WordFields.ofWord insn).funct3 ≠ f3) : ¬ Legal system insn := by
  rintro ⟨row, hrow, o, rfl⟩
  rw [WordFields.ofWord_word] at h
  obtain ⟨hopc, h3⟩ := row.2.major_fields o
  obtain ⟨f3, hf3, hne⟩ := h row hrow hopc.symm
  exact hne (h3 f3 hf3)

theorem rvDecode_rejects_custom :
    isCompressed 0x0000000b = false ∧ ¬ Legal false 0x0000000b ∧
      ((∃ ir, rvDecodeInto false true {} 0x0000000b = .illegal ir) ↔
        ¬ (WordFields.ofWord 0x0000000b).Lenient false) := by
  have hill : ¬ Legal false 0x0000000b := not_legal (by decide +kernel)
  exact ⟨by decide, hill, rvDecode_rejects_iff (by decide) hill⟩

/-- `jalr` with a `funct3` of 1 is decoded as `jalr`. -/
theorem rvDecode_accepts_jalr1 :
    isCompressed 0x00001067 = false ∧ ¬ Legal false 0x00001067 ∧
      rvDecodeInto false true {} 0x00001067 = .ok { opcode := .jalr } := by
  refine ⟨by decide, not_legal (by decide +kernel), by decide⟩

end Rv32emu
