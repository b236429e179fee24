import Rv32emu.Rvc

/-!
# Compressed instructions against their expansion

* `cDecode…_eq` : every immediate of the decoder is the one of the specification;
* `RvcAgrees` : a 16-bit word does what its expansion does, or is rejected if it is reserved;
* `RvcOk` : the exact condition for it (`rvcAgrees_iff`).
-/

namespace Rv32emu

open Rvc

/-! ## Immediates -/

section Immediates

variable (w : Word)

theorem cDecodeCaddi4spnNzuimm_eq : cDecodeCaddi4spnNzuimm w = addi4spnImm w := by
  apply BitVec.eq_of_getLsbD_eq
  intro i hi
  rw [addi4spnImm, getLsbD_ofBits _ hi]
  unfold cDecodeCaddi4spnNzuimm
  interval_cases i <;> simp

theorem cDecodeClImm_eq : cDecodeClImm w = clImm w := by
  apply BitVec.eq_of_getLsbD_eq
  intro i hi
  rw [clImm, getLsbD_ofBits _ hi]
  unfold cDecodeClImm
  interval_cases i <;> simp

theorem cDecodeClwspImm_eq : cDecodeClwspImm w = lwspImm w := by
  apply BitVec.eq_of_getLsbD_eq
  intro i hi
  rw [lwspImm, getLsbD_ofBits _ hi]
  unfold cDecodeClwspImm
  interval_cases i <;> simp

theorem cDecodeCswspImm_eq : cDecodeCswspImm w = swspImm w := by
  apply BitVec.eq_of_getLsbD_eq
  intro i hi
  rw [swspImm, getLsbD_ofBits _ hi]
  unfold cDecodeCswspImm
  interval_cases i <;> simp

theorem and_twoPow_ne_zero (x : Word) {k : Nat} (hk : k < 32) :
    x &&& BitVec.twoPow 32 k ≠ 0 ↔ x.getLsbD k = true := by
  rw [BitVec.and_twoPow]
  split
  · simp_all
    intro h
    have := congrArg (fun y : Word => y.getLsbD k) h
    simp [hk] at this
  · simp_all

theorem signMask_eq {t : Word} {k : Nat} (hk : k < 32) (m : Word) (i : Nat) :
    (if t &&& BitVec.twoPow 32 k ≠ 0 then m ||| t else t).getLsbD i =
      (t.getLsbD i || (m.getLsbD i && t.getLsbD k)) := by
  simp only [and_twoPow_ne_zero t hk]
  by_cases h : t.getLsbD k = true
  · rw [if_pos h, h, BitVec.getLsbD_or, Bool.and_true, Bool.or_comm]
  · rw [Bool.not_eq_true] at h
    rw [if_neg (by simp [h]), h, Bool.and_false, Bool.or_false]

theorem cDecodeCitypeImm_eq : cDecodeCitypeImm w = ciImm w := by
  apply BitVec.eq_of_getLsbD_eq
  intro i hi
  rw [ciImm, getLsbD_ofBits _ hi]
  refine (signMask_eq (show 5 < 32 by decide) _ i).trans ?_
  interval_cases i <;> simp

theorem cDecodeCaddi16spNzimm_eq : cDecodeCaddi16spNzimm w = addi16spImm w := by
  apply BitVec.eq_of_getLsbD_eq
  intro i hi
  rw [addi16spImm, getLsbD_ofBits _ hi]
  refine (signMask_eq (show 9 < 32 by decide) _ i).trans ?_
  interval_cases i <;> simp

theorem cDecodeCluiNzimm_eq : cDecodeCluiNzimm w = luiImm w := by
  apply BitVec.eq_of_getLsbD_eq
  intro i hi
  rw [luiImm, getLsbD_ofBits _ hi]
  refine (signMask_eq (show 17 < 32 by decide) _ i).trans ?_
  interval_cases i <;> simp

/-- The loop that copies bit `n` upwards, over the bits of a 16-bit value. -/
theorem spreadLoop_getLsbD {n : Nat} (hn : n < 16) (t : BitVec 16) (k i : Nat) :
    ((List.range k).foldl (fun (acc : BitVec 16) j => acc ||| ((BitVec.twoPow 16 n &&& acc) <<< (j + 1)))
      t).getLsbD i = (t.getLsbD i || (decide (i < 16 ∧ n < i ∧ i ≤ n + k) && t.getLsbD n)) := by
  induction k generalizing i with
  | zero =>
    have : ¬ (i < 16 ∧ n < i ∧ i ≤ n + 0) := by omega
    rw [decide_eq_false this]
    simp
  | succ k ih =>
    rw [List.range_succ, List.foldl_append, List.foldl_cons, List.foldl_nil, BitVec.getLsbD_or,
      BitVec.getLsbD_shiftLeft, BitVec.getLsbD_and, BitVec.getLsbD_twoPow, ih, ih]
    -- the new step sets bit `n + k + 1` and no other
    by_cases hi : i = n + (k + 1)
    · have hsub : i - (k + 1) = n := by omega
      rw [hsub]
      grind
    · grind

/-- Reading a 16-bit value as signed keeps a value that is already sign-extended. -/
theorem signExtendH_eq {x : Word} (h : ∀ i, 16 ≤ i → i < 32 → x.getLsbD i = x.getLsbD 15) :
    signExtendH x = x := by
  apply BitVec.eq_of_getLsbD_eq
  intro i hi
  rw [signExtendH, BitVec.getLsbD_signExtend]
  by_cases h16 : i < 16
  · simp [hi, h16]
  · rw [if_neg h16, BitVec.msb_eq_getLsbD_last, BitVec.getLsbD_setWidth, h i (by omega) hi]
    simp [hi]

theorem cDecodeCjtypeImm_eq : cDecodeCjtypeImm w = cjImm w := by
  apply BitVec.eq_of_getLsbD_eq
  intro i hi
  rw [cjImm, getLsbD_ofBits _ hi]
  unfold cDecodeCjtypeImm
  simp only [show (0x0800 : BitVec 16) = BitVec.twoPow 16 11 from rfl]
  rw [BitVec.getLsbD_signExtend, BitVec.msb_eq_getLsbD_last]
  simp only [spreadLoop_getLsbD (show 11 < 16 by decide)]
  interval_cases i <;> simp

theorem cDecodeCbtypeImm_eq : signExtendH ((cDecodeCbtypeImm w).setWidth 32) = cbImm w := by
  apply BitVec.eq_of_getLsbD_eq
  intro i hi
  rw [cbImm, getLsbD_ofBits _ hi]
  unfold cDecodeCbtypeImm signExtendH
  simp only [show (0x0100 : BitVec 16) = BitVec.twoPow 16 8 from rfl]
  rw [BitVec.getLsbD_signExtend, BitVec.msb_eq_getLsbD_last]
  simp only [BitVec.getLsbD_setWidth, spreadLoop_getLsbD (show 8 < 16 by decide)]
  interval_cases i <;> simp

theorem cDecodeCaddiImm_eq : cDecodeCaddiImm w = ciImm w := by
  apply BitVec.eq_of_getLsbD_eq
  intro i hi
  rw [ciImm, getLsbD_ofBits _ hi]
  unfold cDecodeCaddiImm signExtendH
  rw [BitVec.getLsbD_signExtend, BitVec.msb_eq_getLsbD_last]
  simp only [List.range_succ, List.range_zero, List.nil_append, List.foldl_append, List.foldl_cons,
    List.foldl_nil]
  interval_cases i <;> simp

theorem signExtendH_ciImm : signExtendH (ciImm w) = ciImm w := by
  apply signExtendH_eq
  intro i h16 hi
  rw [ciImm, getLsbD_ofBits _ hi, getLsbD_ofBits _ (by decide)]
  interval_cases i <;> rfl

theorem signExtendH_cjImm : signExtendH (cjImm w) = cjImm w := by
  apply signExtendH_eq
  intro i h16 hi
  rw [cjImm, getLsbD_ofBits _ hi, getLsbD_ofBits _ (by decide)]
  interval_cases i <;> rfl

theorem addi4spnImm_setWidth : ((addi4spnImm w).setWidth 16).setWidth 32 = addi4spnImm w := by
  apply BitVec.eq_of_getLsbD_eq
  intro i hi
  rw [BitVec.getLsbD_setWidth, BitVec.getLsbD_setWidth, addi4spnImm, getLsbD_ofBits _ hi]
  interval_cases i <;> rfl

theorem shamt_eq : shamt w = (w.extractLsb' 2 5).setWidth 32 := by
  apply BitVec.eq_of_getLsbD_eq
  intro i hi
  rw [shamt, getLsbD_ofBits _ hi]
  interval_cases i <;> simp

theorem cDecodeCbtypeShamt_eq (h : w.getLsbD 12 = false) :
    cDecodeCbtypeShamt w = (shamt w).setWidth 8 := by
  have h' : w[12] = false := by simpa using h
  apply BitVec.eq_of_getLsbD_eq
  intro i hi
  rw [BitVec.getLsbD_setWidth, shamt, getLsbD_ofBits _ (by omega)]
  unfold cDecodeCbtypeShamt
  interval_cases i <;> simp [h']

theorem cDecodeCbtypeShamt_and : cDecodeCbtypeShamt w &&& 0x20 ≠ 0 ↔ w.getLsbD 12 = true := by
  have h : cDecodeCbtypeShamt w &&& 0x20 = if w.getLsbD 12 then 0x20 else 0 := by
    rw [show (0x20 : BitVec 8) = BitVec.twoPow 8 5 from rfl, BitVec.and_twoPow]
    simp [cDecodeCbtypeShamt]
  rw [h]
  by_cases h12 : w.getLsbD 12 = true
  · simp only [h12, if_true, iff_true]
    decide
  · simp

theorem cslliImm_eq (h : w.getLsbD 12 = false) :
    ((w &&& 0x1000) >>> 7) ||| ((w &&& 0x7c) >>> 2) = shamt w := by
  have h' : w[12] = false := by simpa using h
  apply BitVec.eq_of_getLsbD_eq
  intro i hi
  rw [shamt, getLsbD_ofBits _ hi]
  interval_cases i <;> simp [h']

theorem and_1f_toNat (x : Word) : (x &&& 0x1f).toNat = x.toNat % 32 :=
  (BitVec.toNat_and ..).trans (Nat.and_two_pow_sub_one_eq_mod x.toNat 5)

/-- The amount of the base shift and that of the compressed one. -/
theorem shamt_toNat : (shamt w &&& 0x1f).toNat = ((shamt w).setWidth 8).toNat := by
  have h := (w.extractLsb' 2 5).isLt
  rw [and_1f_toNat, shamt_eq]
  simp only [BitVec.toNat_setWidth]
  omega

/-- ORing in the sign bits one at a time is an arithmetic shift. -/
theorem sraLoop_eq (x : Word) (n : BitVec 8) :
    sraLoop x n = x.sshiftRight n.toNat := by
  have hloop (k : Nat) (acc : Word) (i : Nat) (hi : i < 32) :
      ((List.range k).foldl (fun acc j => acc ||| ((0x80000000 &&& x) >>> j)) acc).getLsbD i =
        (acc.getLsbD i || (decide (31 - i < k) && x.getLsbD 31)) := by
    induction k with
    | zero => simp
    | succ k ih =>
      rw [List.range_succ, List.foldl_append, List.foldl_cons, List.foldl_nil, BitVec.getLsbD_or,
        BitVec.getLsbD_ushiftRight, BitVec.getLsbD_and, ih,
        show (0x80000000 : Word) = BitVec.twoPow 32 31 from rfl, BitVec.getLsbD_twoPow]
      by_cases hk : k + i = 31
      · rw [hk]
        grind
      · grind
  apply BitVec.eq_of_getLsbD_eq
  intro i hi
  rw [sraLoop, hloop _ _ _ hi, BitVec.getLsbD_sshiftRight, BitVec.getLsbD_ushiftRight,
    BitVec.msb_eq_getLsbD_last]
  by_cases h : n.toNat + i < 32
  · have : ¬ 31 - i < n.toNat := by omega
    simp [this, h, hi]
  · have h1 : 31 - i < n.toNat := by omega
    have h2 : x.getLsbD (n.toNat + i) = false := BitVec.getLsbD_of_ge _ _ (by omega)
    simp [h1, h2, h, hi]

end Immediates

/-! ## Registers -/

theorem cDecodeRd_eq (w : Word) : cDecodeRd w = rd w := rfl

theorem cDecodeRs2_eq (w : Word) : cDecodeRs2 w = rs2 w := rfl

theorem cDecodeRs1c_eq (w : Word) : cDecodeRs1c w = rd' w := by
  apply BitVec.eq_of_getLsbD_eq
  intro i hi
  unfold cDecodeRs1c rd'
  rw [BitVec.getLsbD_append]
  interval_cases i <;> simp

theorem cDecodeRs2c_eq (w : Word) : cDecodeRs2c w = rs2' w := by
  apply BitVec.eq_of_getLsbD_eq
  intro i hi
  unfold cDecodeRs2c rs2'
  rw [BitVec.getLsbD_append]
  interval_cases i <;> simp

/-- `op_cmisc_alu` reads all five bits of the register of C.SRAI; two of them are its `funct2`. -/
theorem cDecodeRs1_eq_rd' {w : Word} (h : (w.extractLsb' 10 2).toNat = 1) : cDecodeRs1 w = rd' w := by
  have h' : w.extractLsb' 10 2 = 1 := BitVec.eq_of_toNat_eq h
  have h10 : w[10] = true := by simpa using congrArg (fun x : BitVec 2 => x.getLsbD 0) h'
  have h11 : w[11] = false := by simpa using congrArg (fun x : BitVec 2 => x.getLsbD 1) h'
  apply BitVec.eq_of_getLsbD_eq
  intro i hi
  unfold cDecodeRs1 rd'
  rw [BitVec.getLsbD_append]
  interval_cases i <;> simp [h10, h11]

theorem rd'_ne_zero (w : Word) : rd' w ≠ 0 := by
  intro h
  have h3 : (rd' w).getLsbD 3 = true := by
    rw [rd', BitVec.getLsbD_append]
    simp
  rw [h] at h3
  simp at h3

/-! ## Effects of the compressed handlers -/

section Effects

variable (env : Env) (lk : Links) (noNext : Bool) (cycle : BitVec 64) (pc : Word) (s : Cpu)

def Insn.effect (ir : Insn) : Effect := (doRvop env ir lk noNext cycle pc s).result.effect

variable {env lk noNext cycle pc s}

theorem effect_set {ir : Insn} {dst : Insn → Reg} {val : Insn → (Reg → Word) → Word → Word}
    (h : rvop ir.opcode = .set dst val) :
    ir.effect env lk noNext cycle pc s =
      .goOn (pc + ir.opcode.len) (s.setX (dst ir) (val ir s.X pc)) := by
  rw [Insn.effect, doRvop_result, h]
  rfl

theorem effect_skip {ir : Insn} (h : rvop ir.opcode = .skip) :
    ir.effect env lk noNext cycle pc s = .goOn (pc + ir.opcode.len) s := by
  rw [Insn.effect, doRvop_result, h]
  rfl

/-- Only where the default handler goes on depends on `rv->compressed`. -/
theorem effect_load {ir : Insn} {c : Bool} {mask : Word} {addr : Insn → (Reg → Word) → Word}
    {read : Cpu → Word → Word} (h : rvop ir.opcode = .load c mask addr read) :
    ir.effect env lk noNext cycle pc s =
      if misaligned env mask (addr ir s.X) then
        .trapAt pc (pc + if c then 2 else 4) ⟨.loadMisaligned, addr ir s.X, .retFalse⟩ s
      else .goOn (pc + ir.opcode.len) (s.setX ir.rd (read s (addr ir s.X))) := by
  rw [Insn.effect, doRvop_result, h]
  simp only [Code.exec]
  split <;> rfl

theorem effect_store {ir : Insn} {c : Bool} {mask : Word} {addr : Insn → (Reg → Word) → Word}
    {write : Cpu → Word → Word → Cpu} (h : rvop ir.opcode = .store c mask addr write) :
    ir.effect env lk noNext cycle pc s =
      if misaligned env mask (addr ir s.X) then
        .trapAt pc (pc + if c then 2 else 4) ⟨.storeMisaligned, addr ir s.X, .retFalse⟩ s
      else .goOn (pc + ir.opcode.len) (write s (addr ir s.X) (s.X ir.rs2)) := by
  rw [Insn.effect, doRvop_result, h]
  simp only [Code.exec]
  split <;> rfl

theorem effect_flw {ir : Insn} {addr : Insn → (Reg → Word) → Word} (h : rvop ir.opcode = .flw addr) :
    ir.effect env lk noNext cycle pc s =
      if misaligned env 3 (addr ir s.X) then
        .trapAt pc (pc + 4) ⟨.loadMisaligned, addr ir s.X, .retFalse⟩ s
      else .goOn (pc + ir.opcode.len)
        { s with fpu := s.fpu.setF ir.rd (s.memReadW (addr ir s.X)) } := by
  rw [Insn.effect, doRvop_result, h]
  simp only [Code.exec]
  split <;> rfl

theorem effect_fsw {ir : Insn} {addr : Insn → (Reg → Word) → Word} (h : rvop ir.opcode = .fsw addr) :
    ir.effect env lk noNext cycle pc s =
      if misaligned env 3 (addr ir s.X) then
        .trapAt pc (pc + 4) ⟨.storeMisaligned, addr ir s.X, .retFalse⟩ s
      else .goOn (pc + ir.opcode.len) (s.memWriteW (addr ir s.X) (s.fpu.F ir.rs2)) := by
  rw [Insn.effect, doRvop_result, h]
  simp only [Code.exec]
  split <;> rfl

theorem effect_cbranch {ir : Insn} {untaken : Word → Bool} (h : rvop ir.opcode = .cbranch untaken)
    (hlen : ir.opcode.len = 2) :
    ir.effect env lk noNext cycle pc s =
      .goOn (if untaken (s.X ir.rs1) then pc + 2 else pc + ir.imm) s := by
  rw [Insn.effect, doRvop_result, h, hlen, cbranch_result]
  split <;> rfl

/-! ## Comparing effects -/

theorem goOn_inj {pc pc' : Word} {s s' : Cpu} :
    Effect.goOn pc s = .goOn pc' s' ↔ pc = pc' ∧ s.bare = s'.bare := by
  simp [Effect.goOn]

theorem setX_bare_iff {s : Cpu} {r : Reg} {v v' : Word} :
    (s.setX r v).bare = (s.setX r v').bare ↔ v = v' := by
  constructor
  · intro h
    have hX : (s.setX r v).bare.X r = (s.setX r v').bare.X r := by rw [h]
    simpa [Cpu.setX, Cpu.bare, Cpu.arch] using hX
  · rintro rfl
    rfl

theorem setX_bare_self_iff {s : Cpu} {r : Reg} {v : Word} : (s.setX r v).bare = s.bare ↔ s.X r = v := by
  constructor
  · intro h
    have hX : (s.setX r v).bare.X r = s.bare.X r := by rw [h]
    simpa [Cpu.setX, Cpu.bare, Cpu.arch] using hX.symm
  · rintro rfl
    simp [Cpu.setX]

theorem trapAt_inj {pc next next' : Word} {t : Trap} {s : Cpu} :
    Effect.trapAt pc next t s = .trapAt pc next' t s ↔ (s.usesDefaultHandler → next = next') := by
  by_cases h : s.usesDefaultHandler = true
  · simp [Effect.trapAt, h]
  · simp [Effect.trapAt, h]

theorem expected_lw (rd rs1 : Reg) (imm : Word) :
    Insn.expected env 2 { opcode := .lw, rd, rs1, imm } pc s =
      if misaligned env 3 (s.X rs1 + imm) then
        .trapAt pc (pc + 2) ⟨.loadMisaligned, s.X rs1 + imm, .retFalse⟩ s
      else .goOn (pc + 2) (s.setX rd (s.memReadW (s.X rs1 + imm))) := by
  simp only [Insn.expected, rvop, Code.exec, addrImm]
  by_cases h : misaligned env 3 (s.X rs1 + imm) = true
  · simp only [h, if_true]
    rfl
  · simp only [h]
    rfl

theorem expected_sw (rs1 rs2 : Reg) (imm : Word) :
    Insn.expected env 2 { opcode := .sw, rs1, rs2, imm } pc s =
      if misaligned env 3 (s.X rs1 + imm) then
        .trapAt pc (pc + 2) ⟨.storeMisaligned, s.X rs1 + imm, .retFalse⟩ s
      else .goOn (pc + 2) (s.memWriteW (s.X rs1 + imm) (s.X rs2)) := by
  simp only [Insn.expected, rvop, Code.exec, addrImm]
  by_cases h : misaligned env 3 (s.X rs1 + imm) = true
  · simp only [h, if_true]
    rfl
  · simp only [h]
    rfl

theorem expected_flw (rd rs1 : Reg) (imm : Word) :
    Insn.expected env 2 { opcode := .flw, rd, rs1, imm } pc s =
      if misaligned env 3 (s.X rs1 + imm) then
        .trapAt pc (pc + 2) ⟨.loadMisaligned, s.X rs1 + imm, .retFalse⟩ s
      else .goOn (pc + 2) { s with fpu := s.fpu.setF rd (s.memReadW (s.X rs1 + imm)) } := by
  simp only [Insn.expected, rvop, Code.exec, addrImm]
  by_cases h : misaligned env 3 (s.X rs1 + imm) = true
  · simp only [h, if_true]
    rfl
  · simp only [h]
    rfl

theorem expected_fsw (rs1 rs2 : Reg) (imm : Word) :
    Insn.expected env 2 { opcode := .fsw, rs1, rs2, imm } pc s =
      if misaligned env 3 (s.X rs1 + imm) then
        .trapAt pc (pc + 2) ⟨.storeMisaligned, s.X rs1 + imm, .retFalse⟩ s
      else .goOn (pc + 2) (s.memWriteW (s.X rs1 + imm) (s.fpu.F rs2)) := by
  simp only [Insn.expected, rvop, Code.exec, addrImm]
  by_cases h : misaligned env 3 (s.X rs1 + imm) = true
  · simp only [h, if_true]
    rfl
  · simp only [h]
    rfl

/-- Two effects that differ only in where the default handler goes on after a misaligned access. -/
theorem trapOr_inj {c : Bool} {pc next next' : Word} {t : Trap} {s : Cpu} {e : Effect} :
    (if c then Effect.trapAt pc next t s else e) = (if c then .trapAt pc next' t s else e) ↔
      (c → s.usesDefaultHandler → next = next') := by
  cases c with
  | false => simp
  | true => simpa using trapAt_inj

/-! ## The table -/

variable (env lk noNext cycle pc s)

/-- A word does what its expansion does; a HINT only advances, a reserved word is rejected. -/
def Expansion.Agrees (e : Expansion) (d : Decoded) : Prop :=
  match e with
  | .insn b => ∃ ir, d = .ok ir ∧ ir.effect env lk noNext cycle pc s = b.expected env 2 pc s
  | .hint => ∃ ir, d = .ok ir ∧ ir.effect env lk noNext cycle pc s = .goOn (pc + 2) s
  | .reserved => ∃ ir, d = .illegal ir

/-- The words and states for which a compressed instruction does what it stands for. -/
def RvcOk (w : Word) : Prop :=
  match (w.extractLsb' 13 3).toNat, (w.extractLsb' 0 2).toNat with
  -- `c.li` is executed also for `x0`
  | 0b010, 0b01 => if rd w = 0 then s.X 0 = ciImm w else s.X 0 = 0
  -- `c.lui` to `x0` is a no-op even where its immediate is reserved
  | 0b011, 0b01 => ¬ (rd w = 0 ∧ luiImm w = 0)
  -- the RV64 and reserved code points of the arithmetic group run into an `assert`
  | 0b100, 0b01 => ¬ ((w.extractLsb' 10 2).toNat = 3 ∧ w.getLsbD 12 = true)
  | 0b110, 0b01 | 0b111, 0b01 => (s.X (rd' w) = s.X 0 ↔ s.X (rd' w) = 0) ∨ cbImm w = 2
  -- `c.slli` has no check of its amount and `c.lwsp` none of its destination
  | 0b000, 0b10 => w.getLsbD 12 = false
  | 0b010, 0b10 => rd w ≠ 0
  -- the floating-point accesses record a length of four bytes when they trap
  | 0b011, 0b00 | 0b111, 0b00 =>
    misaligned env 3 (s.X (rd' w) + clImm w) → s.usesDefaultHandler = false
  | 0b011, 0b10 => misaligned env 3 (s.X regSp + lwspImm w) → s.usesDefaultHandler = false
  | 0b111, 0b10 => misaligned env 3 (s.X regSp + swspImm w) → s.usesDefaultHandler = false
  | 0b100, 0b10 =>
    if rs2 w = 0 then
      -- `c.ebreak` is decoded as the 4-byte `ebreak`; `c.jr` and `c.jalr` keep bit 0 of the target
      if rd w = 0 then w.getLsbD 12 = true → s.usesDefaultHandler = false
      else (s.X (rd w)).getLsbD 0 = false
    else w.getLsbD 12 = false → rd w ≠ 0 → s.X 0 = 0
  | _, _ => True

variable {env lk noNext cycle pc s}

theorem agrees_insn {b ir : Insn} :
    (Expansion.insn b).Agrees env lk noNext cycle pc s (.ok ir) ↔
      ir.effect env lk noNext cycle pc s = b.expected env 2 pc s := by
  simp [Expansion.Agrees]

theorem agrees_hint {ir : Insn} :
    Expansion.hint.Agrees env lk noNext cycle pc s (.ok ir) ↔
      ir.effect env lk noNext cycle pc s = .goOn (pc + 2) s := by
  simp [Expansion.Agrees]

theorem agrees_reserved_ok {ir : Insn} : ¬ Expansion.reserved.Agrees env lk noNext cycle pc s (.ok ir) := by
  simp [Expansion.Agrees]

theorem agrees_reserved_illegal {ir : Insn} :
    Expansion.reserved.Agrees env lk noNext cycle pc s (.illegal ir) := ⟨ir, rfl⟩

section Formats

variable (w : Word)

theorem opCaddi4spn_agrees :
    (if addi4spnImm w = 0 then Expansion.reserved
      else .insn { opcode := .addi, rd := rs2' w, rs1 := regSp, imm := addi4spnImm w }).Agrees
        env lk noNext cycle pc s (opCaddi4spn {} w) := by
  simp only [opCaddi4spn, cDecodeCaddi4spnNzuimm_eq, cDecodeRs2c_eq]
  split
  · exact agrees_reserved_illegal
  · rw [agrees_insn, effect_set rfl]
    simp only [addi4spnImm_setWidth]
    rfl

theorem opClw_agrees :
    (Expansion.insn { opcode := .lw, rd := rs2' w, rs1 := rd' w, imm := clImm w }).Agrees
      env lk noNext cycle pc s (opClw {} w) := by
  simp only [opClw, cDecodeClImm_eq, cDecodeRs1c_eq, cDecodeRs2c_eq]
  rw [agrees_insn, effect_load rfl, expected_lw]
  rfl

theorem opCsw_agrees :
    (Expansion.insn { opcode := .sw, rs1 := rd' w, rs2 := rs2' w, imm := clImm w }).Agrees
      env lk noNext cycle pc s (opCsw {} w) := by
  simp only [opCsw, cDecodeClImm_eq, cDecodeRs1c_eq, cDecodeRs2c_eq]
  rw [agrees_insn, effect_store rfl, expected_sw]
  rfl

theorem opCflw_agrees :
    (Expansion.insn { opcode := .flw, rd := rs2' w, rs1 := rd' w, imm := clImm w }).Agrees
      env lk noNext cycle pc s (opCflw {} w) ↔
      (misaligned env 3 (s.X (rd' w) + clImm w) → s.usesDefaultHandler = false) := by
  simp only [opCflw, cDecodeClImm_eq, cDecodeRs1c_eq, cDecodeRs2c_eq]
  rw [agrees_insn, effect_flw rfl, expected_flw]
  refine trapOr_inj.trans ?_
  simp [addrImm]

theorem opCfsw_agrees :
    (Expansion.insn { opcode := .fsw, rs1 := rd' w, rs2 := rs2' w, imm := clImm w }).Agrees
      env lk noNext cycle pc s (opCfsw {} w) ↔
      (misaligned env 3 (s.X (rd' w) + clImm w) → s.usesDefaultHandler = false) := by
  simp only [opCfsw, cDecodeClImm_eq, cDecodeRs1c_eq, cDecodeRs2c_eq]
  rw [agrees_insn, effect_fsw rfl, expected_fsw]
  refine trapOr_inj.trans ?_
  simp [addrImm]

theorem opCaddi_agrees :
    (if rd w = 0 then Expansion.hint
      else .insn { opcode := .addi, rd := rd w, rs1 := rd w, imm := ciImm w }).Agrees
        env lk noNext cycle pc s (opCaddi {} w) := by
  simp only [opCaddi, cDecodeCitypeImm_eq, cDecodeRd_eq]
  by_cases h : rd w = 0
  · rw [if_pos h, if_pos h, agrees_hint, effect_skip rfl]
    rfl
  · rw [if_neg h, if_neg h, agrees_insn, effect_set rfl]
    simp only [signExtendH_ciImm]
    rfl

theorem opCjal_agrees :
    (Expansion.insn { opcode := .jal, rd := regRa, imm := cjImm w }).Agrees
      env lk noNext cycle pc s (opCjal {} w) := by
  simp only [opCjal, cDecodeCjtypeImm_eq, signExtendH_cjImm]
  rw [agrees_insn, Insn.effect, doRvop_result]
  simp only [rvop, Code.exec, chainOr_result]
  rfl

theorem opCj_agrees :
    (Expansion.insn { opcode := .jal, rd := regZero, imm := cjImm w }).Agrees
      env lk noNext cycle pc s (opCj {} w) := by
  simp only [opCj, cDecodeCjtypeImm_eq]
  rw [agrees_insn, Insn.effect, doRvop_result]
  simp only [rvop, Code.exec, chainOr_result]
  rfl

theorem opCli_agrees :
    (if rd w = 0 then Expansion.hint
      else .insn { opcode := .addi, rd := rd w, rs1 := regZero, imm := ciImm w }).Agrees
        env lk noNext cycle pc s (opCli {} w) ↔
      if rd w = 0 then s.X 0 = ciImm w else s.X 0 = 0 := by
  simp only [opCli, cDecodeCitypeImm_eq, cDecodeRd_eq]
  by_cases h : rd w = 0
  · rw [if_pos h, if_pos h, agrees_hint, effect_set rfl, goOn_inj, setX_bare_self_iff]
    simp only [h]
    exact and_iff_right rfl
  · have he : Insn.expected env 2 { opcode := .addi, rd := rd w, rs1 := regZero, imm := ciImm w } pc s =
        .goOn (pc + 2) (s.setX (rd w) (s.X 0 + ciImm w)) := rfl
    rw [if_neg h, if_neg h, agrees_insn, effect_set rfl, he]
    refine goOn_inj.trans ((and_iff_right rfl).trans (setX_bare_iff.trans ?_))
    simp [eq_comm]

theorem opClui_agrees :
    (if rd w = regSp then
      if addi16spImm w = 0 then Expansion.reserved
      else .insn { opcode := .addi, rd := regSp, rs1 := regSp, imm := addi16spImm w }
    else if luiImm w = 0 then .reserved
    else if rd w = 0 then .hint
    else .insn { opcode := .lui, rd := rd w, imm := luiImm w }).Agrees
      env lk noNext cycle pc s (opClui {} w) ↔ ¬ (rd w = 0 ∧ luiImm w = 0) := by
  simp only [opClui, cDecodeCaddi16spNzimm_eq, cDecodeCluiNzimm_eq, cDecodeRd_eq]
  by_cases h0 : rd w = 0
  · have hsp : rd w ≠ regSp := by rw [h0]; decide
    rw [if_neg hsp, if_pos h0, if_pos h0]
    by_cases hi : luiImm w = 0
    · simp only [hi, if_true, h0]
      simpa using agrees_reserved_ok
    · simp only [hi, if_false, and_false, not_false_eq_true, iff_true]
      rw [agrees_hint, effect_skip rfl]
      rfl
  · simp only [h0, if_false, false_and, not_false_eq_true, iff_true]
    by_cases hsp : rd w = regSp
    · rw [if_pos hsp, if_pos hsp]
      split
      · exact agrees_reserved_illegal
      · rw [agrees_insn, effect_set rfl, hsp]
        rfl
    · rw [if_neg hsp, if_neg hsp]
      split
      · exact agrees_reserved_illegal
      · rw [agrees_insn, effect_set rfl]
        rfl

/-- C.SRLI; the decoder turns a shift by zero into a no-op. -/
theorem opCsrli_agrees (h10 : (w.extractLsb' 10 2).toNat = 0) :
    (if w.getLsbD 12 then Expansion.reserved
      else .insn { opcode := .srli, rd := rd' w, rs1 := rd' w, imm := shamt w }).Agrees
        env lk noNext cycle pc s (opCmiscAlu {} w) := by
  simp only [opCmiscAlu, h10, cDecodeCbtypeShamt_and, cDecodeRs1c_eq]
  by_cases h : w.getLsbD 12 = true
  · rw [if_pos h, if_pos h]
    exact agrees_reserved_illegal
  · rw [if_neg h, if_neg h, agrees_insn]
    rw [Bool.not_eq_true] at h
    rw [cDecodeCbtypeShamt_eq w h]
    by_cases h0 : (shamt w).setWidth 8 = 0
    · have hop : (if rd' w = 0 ∨ (shamt w).setWidth 8 = 0 then Opcode.cnop else .csrli) = .cnop :=
        if_pos (.inr h0)
      have hs : s = s.setX (rd' w) (s.X (rd' w) >>> (shamt w &&& 0x1f).toNat) := by
        rw [shamt_toNat, h0]
        simp [Cpu.setX]
      rw [effect_skip (by rw [hop]; rfl), hop]
      exact congrArg (Effect.goOn (pc + 2)) hs
    · have hop : (if rd' w = 0 ∨ (shamt w).setWidth 8 = 0 then Opcode.cnop else .csrli) = .csrli :=
        if_neg (not_or.mpr ⟨rd'_ne_zero w, h0⟩)
      rw [hop, effect_set rfl]
      simp only [← shamt_toNat]
      rfl

theorem opCsrai_agrees (h10 : (w.extractLsb' 10 2).toNat = 1) :
    (if w.getLsbD 12 then Expansion.reserved
      else .insn { opcode := .srai, rd := rd' w, rs1 := rd' w, imm := shamt w }).Agrees
        env lk noNext cycle pc s (opCmiscAlu {} w) := by
  simp only [opCmiscAlu, h10, cDecodeCbtypeShamt_and, cDecodeRs1_eq_rd' h10]
  by_cases h : w.getLsbD 12 = true
  · rw [if_pos h, if_pos h]
    exact agrees_reserved_illegal
  · rw [if_neg h, if_neg h, agrees_insn, effect_set rfl]
    rw [Bool.not_eq_true] at h
    simp only [cDecodeCbtypeShamt_eq w h, sraLoop_eq, ← shamt_toNat]
    rfl

theorem opCandi_agrees (h10 : (w.extractLsb' 10 2).toNat = 2) :
    (Expansion.insn { opcode := .andi, rd := rd' w, rs1 := rd' w, imm := ciImm w }).Agrees
      env lk noNext cycle pc s (opCmiscAlu {} w) := by
  simp only [opCmiscAlu, h10, cDecodeCaddiImm_eq, cDecodeRs1c_eq]
  rw [agrees_insn, effect_set rfl]
  rfl

theorem caSelector_eq (h : w.getLsbD 12 = false) :
    (((w &&& 0x1000) >>> 10) ||| ((w &&& 0x60) >>> 5)).toNat = (w.extractLsb' 5 2).toNat := by
  have h' : w[12] = false := by simpa using h
  have heq : ((w &&& 0x1000) >>> 10) ||| ((w &&& 0x60) >>> 5) = (w.extractLsb' 5 2).setWidth 32 := by
    apply BitVec.eq_of_getLsbD_eq
    intro i hi
    rw [BitVec.getLsbD_setWidth]
    interval_cases i <;> simp [h']
  have hlt := (w.extractLsb' 5 2).isLt
  rw [heq, BitVec.toNat_setWidth]
  omega

theorem four_le_caSelector (h : w.getLsbD 12 = true) :
    4 ≤ (((w &&& 0x1000) >>> 10) ||| ((w &&& 0x60) >>> 5)).toNat := by
  have h' : w[12] = true := by simpa using h
  have hbit : (((w &&& 0x1000) >>> 10) ||| ((w &&& 0x60) >>> 5)).getLsbD 2 = true := by simp [h']
  exact Nat.ge_two_pow_of_testBit hbit

theorem opcodeOfCa_of_ge : {n : Nat} → 4 ≤ n → opcodeOfCa n = none
  | _ + 4, _ => rfl

theorem opCa_agrees (h10 : (w.extractLsb' 10 2).toNat = 3) :
    (if w.getLsbD 12 then Expansion.reserved
      else
        let op : Opcode := match (w.extractLsb' 5 2).toNat with
          | 0 => .sub
          | 1 => .xor
          | 2 => .or
          | _ => .and
        .insn { opcode := op, rd := rd' w, rs1 := rd' w, rs2 := rs2' w }).Agrees
          env lk noNext cycle pc s (opCmiscAlu {} w) ↔ ¬ w.getLsbD 12 = true := by
  simp only [opCmiscAlu, h10, cDecodeRs1c_eq, cDecodeRs2c_eq]
  by_cases h : w.getLsbD 12 = true
  · rw [if_pos h, opcodeOfCa_of_ge (four_le_caSelector w h)]
    simp [Expansion.Agrees, h]
  · rw [if_neg h]
    refine iff_of_true ?_ h
    rw [Bool.not_eq_true] at h
    rw [caSelector_eq w h]
    have hlt := (w.extractLsb' 5 2).isLt
    generalize (w.extractLsb' 5 2).toNat = n at hlt
    interval_cases n
    all_goals
      refine agrees_insn.mpr ?_
      rw [effect_set rfl]
      rfl

theorem opCmiscAlu_agrees :
    (match (w.extractLsb' 10 2).toNat with
    | 0 =>
      if w.getLsbD 12 then Expansion.reserved
      else .insn { opcode := .srli, rd := rd' w, rs1 := rd' w, imm := shamt w }
    | 1 =>
      if w.getLsbD 12 then .reserved
      else .insn { opcode := .srai, rd := rd' w, rs1 := rd' w, imm := shamt w }
    | 2 => .insn { opcode := .andi, rd := rd' w, rs1 := rd' w, imm := ciImm w }
    | _ =>
      if w.getLsbD 12 then .reserved
      else
        let op : Opcode := match (w.extractLsb' 5 2).toNat with
          | 0 => .sub
          | 1 => .xor
          | 2 => .or
          | _ => .and
        .insn { opcode := op, rd := rd' w, rs1 := rd' w, rs2 := rs2' w }).Agrees
          env lk noNext cycle pc s (opCmiscAlu {} w) ↔
      ¬ ((w.extractLsb' 10 2).toNat = 3 ∧ w.getLsbD 12 = true) := by
  have hlt := (w.extractLsb' 10 2).isLt
  obtain h | h | h | h : (w.extractLsb' 10 2).toNat = 0 ∨ (w.extractLsb' 10 2).toNat = 1 ∨
      (w.extractLsb' 10 2).toNat = 2 ∨ (w.extractLsb' 10 2).toNat = 3 := by omega
  · simp only [h]
    exact iff_of_true (opCsrli_agrees w h) (by simp)
  · simp only [h]
    exact iff_of_true (opCsrai_agrees w h) (by simp)
  · simp only [h]
    exact iff_of_true (opCandi_agrees w h) (by simp)
  · simp only [h]
    simpa using opCa_agrees w h

/-- The base branches compare with `x0`, the compressed ones with zero. -/
theorem branchTarget_inj {a b : Prop} [Decidable a] [Decidable b] {x y : Word} :
    (if a then x else y) = (if b then x else y) ↔ (b ↔ a) ∨ x = y := by
  by_cases ha : a <;> by_cases hb : b <;> simp [ha, hb, eq_comm]

theorem add_inj_two (imm : Word) : pc + imm = pc + 2 ↔ imm = 2 := by simp

theorem opCbeqz_agrees :
    (Expansion.insn { opcode := .beq, rs1 := rd' w, rs2 := regZero, imm := cbImm w }).Agrees
      env lk noNext cycle pc s (opCbeqz {} w) ↔
      (s.X (rd' w) = s.X 0 ↔ s.X (rd' w) = 0) ∨ cbImm w = 2 := by
  simp only [opCbeqz, cDecodeCbtypeImm_eq, cDecodeRs1c_eq]
  rw [agrees_insn, effect_cbranch rfl rfl]
  refine goOn_inj.trans ((and_iff_left rfl).trans ?_)
  have hif : (if (s.X (rd' w) != 0) = true then pc + 2 else pc + cbImm w) =
      if s.X (rd' w) = 0 then pc + cbImm w else pc + 2 := by
    by_cases h : s.X (rd' w) = 0 <;> simp [h]
  rw [hif]
  refine branchTarget_inj.trans ?_
  rw [add_inj_two]

theorem opCbnez_agrees :
    (Expansion.insn { opcode := .bne, rs1 := rd' w, rs2 := regZero, imm := cbImm w }).Agrees
      env lk noNext cycle pc s (opCbnez {} w) ↔
      (s.X (rd' w) = s.X 0 ↔ s.X (rd' w) = 0) ∨ cbImm w = 2 := by
  simp only [opCbnez, cDecodeCbtypeImm_eq, cDecodeRs1c_eq]
  rw [agrees_insn, effect_cbranch rfl rfl]
  refine goOn_inj.trans ((and_iff_left rfl).trans ?_)
  simp only [beq_iff_eq]
  refine branchTarget_inj.trans ?_
  rw [eq_comm (a := pc + 2), add_inj_two]

theorem opCslli_agrees :
    (if w.getLsbD 12 then Expansion.reserved
      else if rd w = 0 then .hint
      else .insn { opcode := .slli, rd := rd w, rs1 := rd w, imm := shamt w }).Agrees
        env lk noNext cycle pc s (opCslli {} w) ↔ w.getLsbD 12 = false := by
  simp only [opCslli]
  by_cases h : w.getLsbD 12 = true
  · rw [if_pos h, h]
    exact iff_of_false agrees_reserved_ok (by simp)
  · rw [if_neg h]
    rw [Bool.not_eq_true] at h
    refine iff_of_true ?_ h
    rw [cslliImm_eq w h]
    by_cases h0 : rd w = 0
    · rw [if_pos h0, if_neg (not_not.mpr (show cDecodeRd w = 0 from h0)), agrees_hint, effect_skip rfl]
      rfl
    · rw [if_neg h0, if_pos (show cDecodeRd w ≠ 0 from h0), agrees_insn, effect_set rfl]
      have hsh (x : Word) : shlVar x ((shamt w).setWidth 8) = x <<< (shamt w &&& 0x1f).toNat := by
        rw [shlVar, ← shamt_toNat, Nat.mod_eq_of_lt]
        rw [and_1f_toNat]
        exact Nat.mod_lt _ (by decide)
      simp only [hsh]
      rfl

theorem opClwsp_agrees :
    (if rd w = 0 then Expansion.reserved
      else .insn { opcode := .lw, rd := rd w, rs1 := regSp, imm := lwspImm w }).Agrees
        env lk noNext cycle pc s (opClwsp {} w) ↔ rd w ≠ 0 := by
  simp only [opClwsp, cDecodeClwspImm_eq]
  by_cases h0 : rd w = 0
  · rw [if_pos h0]
    exact iff_of_false agrees_reserved_ok (not_not.mpr h0)
  · rw [if_neg h0, if_pos (show cDecodeRd w ≠ 0 from h0)]
    refine iff_of_true ?_ h0
    rw [agrees_insn, effect_load rfl, expected_lw]
    rfl

theorem opCswsp_agrees :
    (Expansion.insn { opcode := .sw, rs1 := regSp, rs2 := rs2 w, imm := swspImm w }).Agrees
      env lk noNext cycle pc s (opCswsp {} w) := by
  simp only [opCswsp, cDecodeCswspImm_eq, cDecodeRs2_eq]
  rw [agrees_insn, effect_store rfl, expected_sw]
  rfl

theorem opCflwsp_agrees :
    (Expansion.insn { opcode := .flw, rd := rd w, rs1 := regSp, imm := lwspImm w }).Agrees
      env lk noNext cycle pc s (opCflwsp {} w) ↔
      (misaligned env 3 (s.X regSp + lwspImm w) → s.usesDefaultHandler = false) := by
  simp only [opCflwsp, cDecodeClwspImm_eq, cDecodeRd_eq]
  rw [agrees_insn, effect_flw rfl, expected_flw]
  refine trapOr_inj.trans ?_
  simp [addrSp]

theorem opCfswsp_agrees :
    (Expansion.insn { opcode := .fsw, rs1 := regSp, rs2 := rs2 w, imm := swspImm w }).Agrees
      env lk noNext cycle pc s (opCfswsp {} w) ↔
      (misaligned env 3 (s.X regSp + swspImm w) → s.usesDefaultHandler = false) := by
  simp only [opCfswsp, cDecodeCswspImm_eq, cDecodeRs2_eq]
  rw [agrees_insn, effect_fsw rfl, expected_fsw]
  refine trapOr_inj.trans ?_
  simp [addrSp]

theorem and_bit12 : w &&& 0x1000 = 0 ↔ w.getLsbD 12 = false := by
  have := and_twoPow_ne_zero w (show 12 < 32 by decide)
  rw [show (0x1000 : Word) = BitVec.twoPow 32 12 from rfl, ← not_iff_not, Bool.not_eq_false]
  exact this

/-- `jalr` clears bit 0 of its target. -/
theorem clearBit_eq_iff (x : Word) : x = (x + 0) &&& ~~~1 ↔ x.getLsbD 0 = false := by
  rw [show x + 0 = x from BitVec.add_zero x]
  constructor
  · intro h
    rw [h]
    simp
  · intro h
    apply BitVec.eq_of_getLsbD_eq
    intro i hi
    rw [BitVec.getLsbD_and, BitVec.getLsbD_not, show (1 : Word) = BitVec.twoPow 32 0 from rfl,
      BitVec.getLsbD_twoPow]
    by_cases hi0 : i = 0
    · rw [hi0, h]
      rfl
    · have : ¬ 0 = i := fun h => hi0 h.symm
      simp [hi, this]

theorem opCcr_agrees :
    (if w.getLsbD 12 then
      if rs2 w = 0 then
        if rd w = 0 then Expansion.insn { opcode := .ebreak }
        else .insn { opcode := .jalr, rd := regRa, rs1 := rd w }
      else if rd w = 0 then .hint
      else .insn { opcode := .add, rd := rd w, rs1 := rd w, rs2 := rs2 w }
    else if rs2 w = 0 then
      if rd w = 0 then .reserved else .insn { opcode := .jalr, rd := regZero, rs1 := rd w }
    else if rd w = 0 then .hint
    else .insn { opcode := .add, rd := rd w, rs1 := regZero, rs2 := rs2 w }).Agrees
      env lk noNext cycle pc s (opCcr {} w) ↔
    if rs2 w = 0 then
      if rd w = 0 then w.getLsbD 12 = true → s.usesDefaultHandler = false
      else (s.X (rd w)).getLsbD 0 = false
    else w.getLsbD 12 = false → rd w ≠ 0 → s.X 0 = 0 := by
  have hrd : cDecodeRs1 w = rd w := rfl
  have hrs2 : cDecodeRs2 w = rs2 w := rfl
  unfold opCcr
  rw [hrd, hrs2]
  simp only [and_bit12]
  by_cases h12 : w.getLsbD 12 = true
  · simp only [h12, if_true, Bool.true_eq_false, if_false, forall_const, false_imp_iff]
    by_cases h2 : rs2 w = 0
    · by_cases h1 : rd w = 0
      · simp only [h1, h2, if_true, and_self]
        have he : Insn.effect env lk noNext cycle pc s { opcode := .ebreak } =
            .trapAt pc (pc + 4) ⟨.breakpoint, pc, .retTrue⟩ s := rfl
        have hx : Insn.expected env 2 { opcode := .ebreak } pc s =
            .trapAt pc (pc + 2) ⟨.breakpoint, pc, .retTrue⟩ s := rfl
        rw [agrees_insn, he, hx, trapAt_inj]
        simp
      · simp only [h1, h2, if_true, if_false, false_and, ne_eq, not_false_eq_true, not_true_eq_false,
          and_false]
        rw [agrees_insn]
        refine goOn_inj.trans ((and_iff_left rfl).trans (clearBit_eq_iff _))
    · simp only [h2, if_false, and_false, iff_true]
      by_cases h1 : rd w = 0
      · simp only [h1, if_true, ne_eq, not_true_eq_false, false_and, if_false]
        rw [agrees_hint, effect_skip rfl]
        rfl
      · simp only [h1, h2, if_false, ne_eq, not_false_eq_true, and_self, if_true]
        rw [agrees_insn, effect_set rfl]
        rfl
  · rw [Bool.not_eq_true] at h12
    simp only [h12, if_true, if_false, Bool.false_eq_true, false_imp_iff, forall_const]
    by_cases h2 : rs2 w = 0
    · by_cases h1 : rd w = 0
      · simp only [h1, h2, if_true, iff_true]
        exact agrees_reserved_illegal
      · simp only [h1, h2, if_true, if_false]
        rw [agrees_insn]
        refine goOn_inj.trans ((and_iff_left rfl).trans (clearBit_eq_iff _))
    · by_cases h1 : rd w = 0
      · simp only [h1, h2, if_true, if_false, ne_eq, not_true_eq_false, false_imp_iff, iff_true]
        rw [agrees_hint, effect_skip rfl]
        rfl
      · simp only [h1, h2, if_false, ne_eq, not_false_eq_true, forall_const, if_true]
        rw [agrees_insn, effect_set rfl]
        refine goOn_inj.trans ((and_iff_right rfl).trans (setX_bare_iff.trans ?_))
        simp [eq_comm]

end Formats

/-! ## All words -/

/-- **When a compressed instruction is its expansion.** -/
theorem rvcAgrees_iff (env : Env) (lk : Links) (noNext : Bool) (cycle : BitVec 64) (pc : Word) (s : Cpu)
    (insn : Word) (hc : isCompressed insn = true) :
    (expand (insn &&& 0xffff)).Agrees env lk noNext cycle pc s (rvDecode true insn) ↔
      RvcOk env s (insn &&& 0xffff) := by
  have hdec : rvDecode true insn = rvcJumpTable {} (insn &&& 0xffff) := by
    simp [rvDecode, rvDecodeInto, hc]
  rw [hdec]
  generalize insn &&& 0xffff = w
  have hf := (w.extractLsb' 13 3).isLt
  have hq := (w.extractLsb' 0 2).isLt
  unfold rvcJumpTable expand RvcOk
  generalize (w.extractLsb' 13 3).toNat = f at hf ⊢
  generalize (w.extractLsb' 0 2).toNat = q at hq ⊢
  have hres : Expansion.reserved.Agrees env lk noNext cycle pc s (.illegal {}) ↔ True :=
    iff_of_true agrees_reserved_illegal trivial
  interval_cases f
  · interval_cases q
    · exact iff_of_true (opCaddi4spn_agrees w) trivial
    · exact iff_of_true (opCaddi_agrees w) trivial
    · exact opCslli_agrees w
    · exact hres
  · interval_cases q
    · exact hres
    · exact iff_of_true (opCjal_agrees w) trivial
    · exact hres
    · exact hres
  · interval_cases q
    · exact iff_of_true (opClw_agrees w) trivial
    · exact opCli_agrees w
    · exact opClwsp_agrees w
    · exact hres
  · interval_cases q
    · exact opCflw_agrees w
    · exact opClui_agrees w
    · exact opCflwsp_agrees w
    · exact hres
  · interval_cases q
    · exact hres
    · exact opCmiscAlu_agrees w
    · exact opCcr_agrees w
    · exact hres
  · interval_cases q
    · exact hres
    · exact iff_of_true (opCj_agrees w) trivial
    · exact hres
    · exact hres
  · interval_cases q
    · exact iff_of_true (opCsw_agrees w) trivial
    · exact opCbeqz_agrees w
    · exact iff_of_true (opCswsp_agrees w) trivial
    · exact hres
  · interval_cases q
    · exact opCfsw_agrees w
    · exact opCbnez_agrees w
    · exact opCfswsp_agrees w
    · exact hres

end Effects

/-- `c.jr a0` with an even target. -/
theorem rvcAgrees_iff_cjr :
    isCompressed 0x8502 = true ∧
      (expand 0x8502).Agrees (.bare false) {} true 0 0x40 ((Cpu.zero fun _ => 0).setX 10 0x100)
        (rvDecode true 0x8502) :=
  ⟨by decide, (rvcAgrees_iff (.bare false) {} true 0 0x40 ((Cpu.zero fun _ => 0).setX 10 0x100) 0x8502
    (by decide)).mpr (by decide : (((Cpu.zero fun _ => 0).setX 10 0x100).X 10).getLsbD 0 = false)⟩

/-- `c.jr a0` with `a0 = 1` goes to address 1, and `jalr x0, 0(a0)` to address 0. -/
theorem rvcAgrees_cjr_odd :
    ¬ ∀ (env : Env) (lk : Links) (noNext : Bool) (cycle : BitVec 64) (pc : Word) (s : Cpu) (insn : Word),
      isCompressed insn = true →
        (expand (insn &&& 0xffff)).Agrees env lk noNext cycle pc s (rvDecode true insn) := by
  intro h
  obtain ⟨ir, hir, heff⟩ := h (.bare false) {} true 0 0x40 ((Cpu.zero fun _ => 0).setX 10 1) 0x8502
    (by decide)
  obtain rfl : { rd := 10, rs1 := 10, opcode := .cjr } = ir := Decoded.ok.inj hir
  have hpc : (1 : Word) = 0 := congrArg Effect.pc heff
  exact absurd hpc (by decide)

end Rv32emu
