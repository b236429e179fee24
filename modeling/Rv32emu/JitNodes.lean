import Rv32emu.JitMacros
import Rv32emu.T2cFused

/-!
# Nodes in tier 1

What the code of the handlers in `JitGen` does, against the handlers of the interpreter.

* `Access` : a load or store whose host address is the guest's, and that does not trap;
* `Insn.Fits` : the nodes, and the states in front of them, for which the code is right;
* `NodeSound` : the interpreter goes on with the next node, and the code does what it does;
* `gen_sound` : every node that fits.
-/

namespace Rv32emu.Tier1

open X64 (Emitter lo zx)
open X64.Emitter (Triple)

/-! ## Nodes that fit -/

/-- The alignment that the interpreter asks for. -/
def accessMask : X64.Width → Word
  | .s8 => 0
  | .s16 => 1
  | .s32 => 3

/-- `base + imm` does not wrap, lies in the guest's memory, and is aligned. -/
structure Access (env : Env) (L : Layout) (w : X64.Width) (base imm : Word) : Prop where
  range : InRange base imm
  inside : (base + imm).toNat + w.size ≤ L.memSize
  aligned : misaligned env (accessMask w) (base + imm) = false

/-- The word at `a`, whose address is not computed by the host. -/
def WordInside (env : Env) (L : Layout) (a : Word) : Prop :=
  a.toNat + 4 ≤ L.memSize ∧ misaligned env 3 a = false

/-- The word of an entry of `fuse3` or `fuse4`. -/
def entryFits (env : Env) (L : Layout) (f : OpcodeFuse) (s : Cpu) : Prop := Access env L .s32 (s.X f.rs1) f.imm

/-- The nodes and states for which the code of `gen` does what the handler does. The decoder leaves no instruction but
a load with the destination `x0`. -/
def Fits (env : Env) (L : Layout) (R : Rep) (ir : Insn) (s : Cpu) : Prop :=
  match ir.opcode with
  | .nop | .cnop => True
  | .lui | .auipc | .cli | .clui | .addi | .xori | .ori | .andi | .slti | .sltiu | .slli | .srli | .srai | .add | .sub
  | .xor | .or | .and | .sll | .srl | .sra | .slt | .sltu | .mul | .remu | .caddi4spn | .caddi | .caddi16sp | .cslli
  | .cmv | .cadd | .csub | .cxor | .cor | .cand | .fuse8 => ir.rd ≠ regZero
  | .candi => ir.rs1 ≠ regZero
  | .csrli | .csrai => ir.rs1 ≠ regZero ∧ ir.shamt.toNat < 32
  | .lb | .lbu => R.Narrow ∧ ir.rd ≠ regZero ∧ Access env L .s8 (s.X ir.rs1) ir.imm
  | .lh | .lhu => R.Narrow ∧ ir.rd ≠ regZero ∧ Access env L .s16 (s.X ir.rs1) ir.imm
  | .lw | .clw => R.Narrow ∧ ir.rd ≠ regZero ∧ Access env L .s32 (s.X ir.rs1) ir.imm
  | .clwsp => R.Narrow ∧ ir.rd ≠ regZero ∧ Access env L .s32 (s.X regSp) ir.imm
  | .sb => R.Narrow ∧ Access env L .s8 (s.X ir.rs1) ir.imm
  | .sh => R.Narrow ∧ Access env L .s16 (s.X ir.rs1) ir.imm
  | .sw | .csw => R.Narrow ∧ Access env L .s32 (s.X ir.rs1) ir.imm
  | .cswsp => R.Narrow ∧ Access env L .s32 (s.X regSp) ir.imm
  | .mulhu => R.Narrow ∧ ir.rd ≠ regZero
  | .mulh => R.Wide ∧ ir.rd ≠ regZero
  | .div => R.Wide ∧ ir.rd ≠ regZero ∧ Division.div.Right (s.X ir.rs1) (s.X ir.rs2)
  | .rem => R.Wide ∧ ir.rd ≠ regZero ∧ Division.rem.Right (s.X ir.rs1) (s.X ir.rs2)
  -- a quotient by 0 has 64 ones
  | .divu => (R.Wide ∨ s.X ir.rs2 ≠ 0) ∧ ir.rd ≠ regZero
  | .fuse1 | .fuse7 => ∀ f ∈ ir.fused, f.rd ≠ regZero
  | .fuse2 => ir.rd ≠ regZero ∧ ir.rs2 ≠ regZero
  | .fuse3 => R.Narrow ∧ ∀ f ∈ ir.fused, entryFits env L f s
  | .fuse4 => R.Narrow ∧ (∀ f ∈ ir.fused, f.rd ≠ regZero) ∧ Stepwise (entryFits env L) loadEntry ir.fused s
  | .fuse5 => ∀ f ∈ ir.fused, isShiftImm f.opcode = true ∧ f.rd ≠ regZero
  | .fuse9 => ir.rd ≠ regZero ∧ ir.rs2 ≠ regZero ∧ WordInside env L (ir.imm + ir.imm2)
  | .fuse10 => ir.rd ≠ regZero ∧ WordInside env L (ir.imm + ir.imm2)
  -- `mulhsu` and `fuse11` depend on what the allocator has kept
  | _ => False

/-- The interpreter goes on behind the node, and the code of the node takes the registers and the memory to the same. -/
def NodeSound (env : Env) (L : Layout) (R : Rep) (queue : List Reg) (ir : Insn) (s : Cpu) : Prop :=
  ∃ s', (∀ cycle, ∃ cycle', impl env ir {} false cycle ir.pc s = .next cycle' (ir.pc + ir.nodeLen) s') ∧
    Triple (Holds L R s.X s.mem ∅) (gen queue L.memBase ir) fun _ => Holds L R s'.X s'.mem ∅

section Nodes

variable {env : Env} {L : Layout} {R : Rep} {queue : List Reg} {ir : Insn} {s s' : Cpu}

/-! ## Rows of the template -/

theorem nodeSound_row (hfuse : ir.opcode.isFuse = false)
    (hexec : ∀ cycle, (rvop ir.opcode).exec env ir {} cycle ir.pc s = .next s')
    (hgen : Triple (Holds L R s.X s.mem ∅) (gen queue L.memBase ir) fun _ => Holds L R s'.X s'.mem ∅) :
    NodeSound env L R queue ir s := by
  refine ⟨s', fun cycle => ⟨cycle + 1, ?_⟩, hgen⟩
  rw [impl_of_not_fuse hfuse, Insn.nodeLen_of_not_fuse hfuse]
  simp only [doRvop, hexec]
  rfl

theorem nodeSound_set (hfuse : ir.opcode.isFuse = false) {dst : Insn → Reg}
    {val : Insn → (Reg → Word) → Word → Word} (hrow : rvop ir.opcode = .set dst val) {v : Word}
    (hgen : Triple (Holds L R s.X s.mem ∅) (gen queue L.memBase ir) fun _ =>
      Holds L R (Function.update s.X (dst ir) v) s.mem ∅) (hv : v = val ir s.X ir.pc) :
    NodeSound env L R queue ir s := by
  have hexec (cycle : BitVec 64) :
      (rvop ir.opcode).exec env ir {} cycle ir.pc s = .next (s.setX (dst ir) (val ir s.X ir.pc)) := by
    rw [hrow]
    rfl
  exact nodeSound_row hfuse hexec (hv ▸ hgen)

theorem nodeSound_load (hfuse : ir.opcode.isFuse = false) {compress : Bool} {mask : Word}
    {addr : Insn → (Reg → Word) → Word} {read : Cpu → Word → Word}
    (hrow : rvop ir.opcode = .load compress mask addr read)
    (hal : misaligned env mask (addr ir s.X) = false) {v : Word}
    (hgen : Triple (Holds L R s.X s.mem ∅) (gen queue L.memBase ir) fun _ =>
      Holds L R (Function.update s.X ir.rd v) s.mem ∅) (hv : v = read s (addr ir s.X)) :
    NodeSound env L R queue ir s := by
  have hexec (cycle : BitVec 64) :
      (rvop ir.opcode).exec env ir {} cycle ir.pc s = .next (s.setX ir.rd (read s (addr ir s.X))) := by
    rw [hrow]
    simp only [Code.exec, hal, Bool.false_eq_true, if_false]
  exact nodeSound_row hfuse hexec (hv ▸ hgen)

theorem nodeSound_store (hfuse : ir.opcode.isFuse = false) {compress : Bool} {mask : Word}
    {addr : Insn → (Reg → Word) → Word} {write : Cpu → Word → Word → Cpu}
    (hrow : rvop ir.opcode = .store compress mask addr write)
    (hal : misaligned env mask (addr ir s.X) = false) {mem : Mem}
    (hgen : Triple (Holds L R s.X s.mem ∅) (gen queue L.memBase ir) fun _ => Holds L R s.X mem ∅)
    (hmem : write s (addr ir s.X) (s.X ir.rs2) = { s with mem }) : NodeSound env L R queue ir s := by
  have hexec (cycle : BitVec 64) : (rvop ir.opcode).exec env ir {} cycle ir.pc s = .next { s with mem } := by
    rw [hrow]
    simp only [Code.exec, hal, Bool.false_eq_true, if_false, hmem]
  exact nodeSound_row hfuse hexec hgen

/-! ## Values -/

theorem shift_eval_1f (op : X64.Shift) (x imm : Word) :
    op.eval x ((imm &&& 0x1f).setWidth 8) = match op with
      | .shl => x <<< (imm &&& 0x1f).toNat
      | .shr => x >>> (imm &&& 0x1f).toNat
      | .sar => x.sshiftRight (imm &&& 0x1f).toNat := by
  have h := and_1f_lt imm
  have hn : ((imm &&& 0x1f).setWidth 8).toNat % 32 = (imm &&& 0x1f).toNat := by
    rw [BitVec.toNat_setWidth]
    omega
  cases op <;> rw [X64.Shift.eval, hn]

theorem lo_mul_zx (x y : Word) : lo (zx x * zx y) = (x.signExtend 64 * y.signExtend 64 &&& 0xffffffff).setWidth 32 := by
  have hmask (p : BitVec 64) : (p &&& 0xffffffff).setWidth 32 = lo p := by
    apply BitVec.eq_of_toNat_eq
    rw [lo, BitVec.toNat_setWidth, BitVec.toNat_setWidth, BitVec.toNat_and,
      show (0xffffffff : BitVec 64).toNat = 2 ^ 32 - 1 from rfl, Nat.and_two_pow_sub_one_eq_mod, Nat.mod_mod]
  have hmul (a b : BitVec 64) : lo (a * b) = lo a * lo b := BitVec.setWidth_mul _ _ (by decide)
  rw [hmask, hmul, hmul, X64.lo_zx, X64.lo_zx, X64.lo_signExtend, X64.lo_signExtend]

theorem lo_div_signExtend {x y : Word} (h : Division.div.Right x y) :
    lo (MulDiv.result true (x.signExtend 64) (y.signExtend 64) .div) = divVal x y := by
  have hiff := Division.lo_result_div_iff (x.signExtend 64) (y.signExtend 64)
  rw [X64.lo_signExtend, X64.lo_signExtend] at hiff
  exact hiff.mpr h

theorem lo_rem_signExtend {x y : Word} (h : Division.rem.Right x y) :
    lo (MulDiv.result true (x.signExtend 64) (y.signExtend 64) .mod) = remVal x y := by
  have hiff := Division.lo_result_rem_iff (x.signExtend 64) (y.signExtend 64)
  rw [X64.lo_signExtend, X64.lo_signExtend] at hiff
  exact hiff.mpr h

section Unsigned

variable {a b : BitVec 64} {x y : Word}

theorem holds_divu (ha : R.holds a x) (hb : R.holds b y) (h : R.Wide ∨ y ≠ 0) :
    R.holds (MulDiv.result false a b .div) (divuVal x y) := by
  rcases h with hwide | hy
  · have hv := hwide (MulDiv.result false a b .div)
    rwa [Division.lo_result_divu, R.lo_eq ha, R.lo_eq hb] at hv
  · rw [MulDiv.result, R.lo_eq ha, R.lo_eq hb, if_neg (fun hf => absurd hf.1 Bool.false_ne_true), if_neg hy, divuVal,
      if_neg hy]
    exact R.zx _

/-- The remainder by 0 is the dividend as it was in its register. -/
theorem holds_remu (ha : R.holds a x) (hb : R.holds b y) :
    R.holds (MulDiv.result false a b .mod) (remuVal x y) := by
  rw [MulDiv.result, R.lo_eq ha, R.lo_eq hb, if_neg (fun hf => absurd hf.1 Bool.false_ne_true), remuVal]
  by_cases hy : y = 0
  · rwa [if_pos hy, if_pos hy]
  · rw [if_neg hy, if_neg hy]
    exact R.zx _

end Unsigned

theorem extend8 (b : Byte) : X64.Width.s8.extend (b.setWidth 32) true = zx (signExtendB (b.setWidth 32)) := by
  rw [signExtendB_setWidth, X64.Width.extend, if_pos rfl, BitVec.setWidth_setWidth_of_le _ (by decide),
    BitVec.setWidth_eq]

theorem extend16 (b : BitVec 16) :
    X64.Width.s16.extend (b.setWidth 32) true = zx (signExtendH (b.setWidth 32)) := by
  rw [signExtendH_setWidth, X64.Width.extend, if_pos rfl, BitVec.setWidth_setWidth_of_le _ (by decide),
    BitVec.setWidth_eq]

theorem extractLsb_low (v : Word) (n : Nat) : v.extractLsb' 0 n = v.setWidth n := by
  apply BitVec.eq_of_getLsbD_eq
  intro i hi
  simp [hi]

theorem write8 (mem : Mem) (a : BitVec 64) (v : Word) : X64.Width.s8.write mem a v = mem.writeB a (v.setWidth 8) := by
  rw [X64.Width.write, extractLsb_low]
  rfl

theorem write16 (mem : Mem) (a : BitVec 64) (v : Word) :
    X64.Width.s16.write mem a v = mem.writeS a (v.setWidth 16) := by
  have hb (k : Nat) (hk : k + 8 ≤ 16) : (v.setWidth 16).extractLsb' k 8 = v.extractLsb' k 8 := by
    apply BitVec.eq_of_getLsbD_eq
    intro i hi
    simp only [BitVec.getLsbD_extractLsb', BitVec.getLsbD_setWidth]
    simp [hi, show k + i < 16 by omega]
  rw [X64.Width.write, Mem.writeS, hb 0 (by decide), hb 8 (by decide)]
  rfl

/-! ## Runs -/

section Runs

variable {ok : OpcodeFuse → Cpu → Prop} {eff : OpcodeFuse → Cpu → Cpu}

/-- The code of entries that are in order one after the other. -/
theorem triple_forM {body : OpcodeFuse → Gen Unit} (l : List OpcodeFuse)
    (hbody : ∀ f ∈ l, ∀ s, ok f s →
      Triple (Holds L R s.X s.mem ∅) (body f) fun _ => Holds L R (eff f s).X (eff f s).mem ∅)
    (h : Stepwise ok eff l s) :
    Triple (Holds L R s.X s.mem ∅) (l.forM body) fun _ =>
      Holds L R (l.foldl (fun s f => eff f s) s).X (l.foldl (fun s f => eff f s) s).mem ∅ := by
  induction l generalizing s with
  | nil => exact Triple.pure fun _ _ ht => ht
  | cons f rest ih =>
    exact (hbody f (List.mem_cons_self ..) s h.1).bind fun _ =>
      ih (fun g hg => hbody g (List.mem_cons_of_mem f hg)) h.2

theorem nodeSound_seq {p : Opcode → Bool} {op : Opcode} (hseq : SeqFusion p op) (hop : ir.opcode = op)
    {body : OpcodeFuse → Gen Unit} (hgen : gen queue L.memBase ir = fuseLoop body ir)
    (hint : ∀ f ∈ ir.fused, ∀ s, ok f s → seqBody env op f s = .ok (eff f s))
    (hbody : ∀ f ∈ ir.fused, ∀ s, ok f s →
      Triple (Holds L R s.X s.mem ∅) (body f) fun _ => Holds L R (eff f s).X (eff f s).mem ∅)
    (h : Stepwise ok eff ir.fused s) : NodeSound env L R queue ir s := by
  refine ⟨ir.fused.foldl (fun s f => eff f s) s, fun cycle => ⟨cycle + ir.imm2.signExtend 64, ?_⟩, ?_⟩
  · have hlen : ir.nodeLen = ir.imm2 * 4 := by
      unfold Insn.nodeLen
      cases hseq <;> rw [hop]
    rw [hseq.impl_eq env ir hop, hlen, fuseSeq, show ir.fuse.take ir.imm2.toNat = ir.fused from rfl,
      foldlM_ok_of_stepwise ir.fused hint h]
    rfl
  · rw [hgen]
    exact triple_forM ir.fused hbody h

theorem nodeSound_seq_total {p : Opcode → Bool} {op : Opcode} (hseq : SeqFusion p op) (hop : ir.opcode = op)
    {body : OpcodeFuse → Gen Unit} (hgen : gen queue L.memBase ir = fuseLoop body ir)
    (hint : ∀ f ∈ ir.fused, ∀ s, seqBody env op f s = .ok (eff f s))
    (hbody : ∀ f ∈ ir.fused, ∀ s : Cpu,
      Triple (Holds L R s.X s.mem ∅) (body f) fun _ => Holds L R (eff f s).X (eff f s).mem ∅) :
    NodeSound env L R queue ir s := by
  have hall : Stepwise (fun _ _ => True) eff ir.fused s := stepwise_of_forall _ (fun _ _ _ => trivial) _
  exact nodeSound_seq hseq hop hgen (fun f hf s _ => hint f hf s) (fun f hf s _ => hbody f hf s) hall

end Runs

/-! ## Pairs -/

theorem nodeSound_pair (hlen : ir.nodeLen = 8)
    (himpl : ∀ cycle, impl env ir {} false cycle ir.pc s = .next (cycle + 2) (ir.pc + 8) s')
    (hgen : Triple (Holds L R s.X s.mem ∅) (gen queue L.memBase ir) fun _ => Holds L R s'.X s'.mem ∅) :
    NodeSound env L R queue ir s :=
  ⟨s', fun cycle => ⟨cycle + 2, by rw [himpl, hlen]⟩, hgen⟩

theorem checkAligned_of_aligned_word {cause : Cause} {a : Word} (h : misaligned env 3 a = false) (s : Cpu) :
    checkAligned env cause a s = .ok s := by
  rw [checkAligned, h, if_neg Bool.false_ne_true]

theorem fuse2_next (hop : ir.opcode = .fuse2) (cycle : BitVec 64) :
    impl env ir {} false cycle ir.pc s = .next (cycle + 2) (ir.pc + 8)
      ((s.setX ir.rd ir.imm).setX ir.rs2 ((s.setX ir.rd ir.imm).X ir.rs1 + ir.imm)) := by
  have hrd : (s.setX ir.rd ir.imm).X ir.rd = ir.imm := Function.update_self ..
  simp only [impl, hop, doFuse2, hrd, BitVec.add_comm ir.imm]
  rfl

theorem fuse9_next (hop : ir.opcode = .fuse9) (hal : misaligned env 3 (ir.imm + ir.imm2) = false) (cycle : BitVec 64) :
    impl env ir {} false cycle ir.pc s = .next (cycle + 2) (ir.pc + 8)
      ((s.setX ir.rd ir.imm).setX ir.rs2 (s.memReadW (ir.imm + ir.imm2))) := by
  simp only [impl, hop, doFuse9, checkAligned_of_aligned_word hal]
  rfl

theorem fuse10_next (hop : ir.opcode = .fuse10) (hal : misaligned env 3 (ir.imm + ir.imm2) = false)
    (cycle : BitVec 64) :
    impl env ir {} false cycle ir.pc s = .next (cycle + 2) (ir.pc + 8)
      ((s.setX ir.rd ir.imm).memWriteW (ir.imm + ir.imm2) ((s.setX ir.rd ir.imm).X ir.rs1)) := by
  simp only [impl, hop, doFuse10, checkAligned_of_aligned_word hal]
  rfl

/-! ## The handlers -/

variable (hq : ∀ r, r ∈ queue)

include hq in
theorem triple_fuseShift {f : OpcodeFuse} (hf : isShiftImm f.opcode = true) (hrd : f.rd ≠ regZero) :
    Triple (Holds L R s.X s.mem ∅) (fuseShift queue f) fun _ =>
      Holds L R (shiftEntry f s).X (shiftEntry f s).mem ∅ := by
  obtain ⟨imm, rd, rs1, rs2, opcode⟩ := f
  have hshift (op : X64.Shift) : Triple (Holds L R s.X s.mem ∅) (shiftImm queue op rs1 rd imm) _ :=
    triple_shiftImm hq op rs1 hrd imm
  simp only [shift_eval_1f] at hshift
  cases opcode with
  | slli => exact hshift .shl
  | srli => exact hshift .shr
  | srai => exact hshift .sar
  | _ => cases hf

include hq in
/-- **The code of a node that fits does what the interpreter does.** -/
theorem gen_sound (h0 : s.X regZero = 0) (h : Fits env L R ir s) : NodeSound env L R queue ir s := by
  obtain ⟨imm, rd, rs1, rs2, opcode, shamt, rm, imm2, fuse, pc⟩ := ir
  cases opcode
  case nop =>
    refine nodeSound_set rfl rfl (v := 0) (Triple.pure fun m t ht => ?_) rfl
    rw [← h0, Function.update_eq_self]
    exact ht
  case cnop => exact nodeSound_row rfl (fun _ => rfl) (Triple.pure fun _ _ ht => ht)
  case lui | cli | clui => exact nodeSound_set rfl rfl (triple_loadConst hq h imm) rfl
  case auipc => exact nodeSound_set rfl rfl (triple_loadConst hq h (pc + imm)) (BitVec.add_comm ..)
  case addi | xori | ori | andi =>
    exact nodeSound_set rfl rfl (triple_aluImm hq (fun _ _ => by rfl) rs1 h imm) rfl
  case slti | sltiu => exact nodeSound_set rfl rfl (triple_sltImm hq _ rs1 h imm) rfl
  case slli | srli | srai =>
    exact nodeSound_set rfl rfl (triple_shiftImm hq _ rs1 h imm) (shift_eval_1f _ _ _)
  case slt | sltu => exact nodeSound_set rfl rfl (triple_sltReg hq _ rs1 rs2 h) rfl
  case add | sub | xor | or | and | cadd | csub | cxor | cor | cand =>
    exact nodeSound_set rfl rfl (triple_aluReg hq (fun _ _ => by rfl) rs1 rs2 h) rfl
  case sll | srl | sra =>
    exact nodeSound_set rfl rfl (triple_shiftReg hq _ rs1 rs2 h) (shift_eval_1f _ _ _)
  case mul =>
    refine nodeSound_set rfl rfl (triple_mulDiv hq .mul rs1 rs2 h fun a b ha hb => ?_) (lo_mul_zx _ _)
    rw [MulDiv.result, R.lo_eq ha, R.lo_eq hb]
    exact R.zx _
  case mulhu => exact nodeSound_set rfl rfl (triple_mulHigh hq h.1 rs1 rs2 h.2) rfl
  case mulh => exact nodeSound_set rfl rfl (triple_mulHighSext hq h.1 rs1 rs2 h.2) rfl
  case div =>
    exact nodeSound_set rfl rfl (triple_divRem hq h.1 .div rs1 rs2 h.2.1 (lo_div_signExtend h.2.2)) rfl
  case rem =>
    exact nodeSound_set rfl rfl (triple_divRem hq h.1 .mod rs1 rs2 h.2.1 (lo_rem_signExtend h.2.2)) rfl
  case divu =>
    exact nodeSound_set rfl rfl (triple_mulDiv hq .div rs1 rs2 h.2 fun _ _ ha hb => holds_divu ha hb h.1) rfl
  case remu =>
    exact nodeSound_set rfl rfl (triple_mulDiv hq .mod rs1 rs2 h fun _ _ ha hb => holds_remu ha hb) rfl
  case caddi4spn => exact nodeSound_set rfl rfl (triple_aluImm hq (fun _ _ => by rfl) regSp h _) rfl
  case caddi | caddi16sp | candi =>
    exact nodeSound_set rfl rfl (triple_aluInPlace hq (fun _ _ => by rfl) h _) rfl
  case csrli =>
    refine nodeSound_set rfl rfl (triple_shiftInPlace hq .shr h.1 shamt) ?_
    rw [X64.Shift.eval, Nat.mod_eq_of_lt h.2]
  case csrai =>
    refine nodeSound_set rfl rfl (triple_shiftInPlace hq .sar h.1 shamt) ?_
    rw [X64.Shift.eval, Nat.mod_eq_of_lt h.2]
    exact (sraLoop_eq _ _).symm
  case cslli => exact nodeSound_set rfl rfl (triple_shiftInPlace hq .shl h _) rfl
  case cmv => exact nodeSound_set rfl rfl (triple_move hq rs2 h) rfl
  case lb =>
    obtain ⟨hnarrow, hrd, hacc⟩ := h
    exact nodeSound_load rfl rfl hacc.aligned
      (triple_load hq hnarrow .s8 true rs1 hrd imm hacc.range hacc.inside (extend8 _)) rfl
  case lh =>
    obtain ⟨hnarrow, hrd, hacc⟩ := h
    exact nodeSound_load rfl rfl hacc.aligned
      (triple_load hq hnarrow .s16 true rs1 hrd imm hacc.range hacc.inside (extend16 _)) rfl
  case lw | clw | lbu | lhu =>
    obtain ⟨hnarrow, hrd, hacc⟩ := h
    exact nodeSound_load rfl rfl hacc.aligned
      (triple_load hq hnarrow _ false rs1 hrd imm hacc.range hacc.inside rfl) rfl
  case clwsp =>
    obtain ⟨hnarrow, hrd, hacc⟩ := h
    exact nodeSound_load rfl rfl hacc.aligned
      (triple_load hq hnarrow _ false regSp hrd imm hacc.range hacc.inside rfl) rfl
  case sb =>
    obtain ⟨hnarrow, hacc⟩ := h
    refine nodeSound_store rfl rfl hacc.aligned (triple_store hq hnarrow .s8 rs1 rs2 imm hacc.range hacc.inside) ?_
    rw [write8]
    rfl
  case sh =>
    obtain ⟨hnarrow, hacc⟩ := h
    refine nodeSound_store rfl rfl hacc.aligned (triple_store hq hnarrow .s16 rs1 rs2 imm hacc.range hacc.inside) ?_
    rw [write16]
    rfl
  case sw | csw =>
    obtain ⟨hnarrow, hacc⟩ := h
    exact nodeSound_store rfl rfl hacc.aligned (triple_store hq hnarrow .s32 rs1 rs2 imm hacc.range hacc.inside) rfl
  case cswsp =>
    obtain ⟨hnarrow, hacc⟩ := h
    exact nodeSound_store rfl rfl hacc.aligned
      (triple_store hq hnarrow .s32 regSp rs2 imm hacc.range hacc.inside) rfl
  case fuse1 =>
    exact nodeSound_seq_total .lui rfl rfl (fun _ _ _ => rfl) fun f hf s => triple_loadConst hq (h f hf) f.imm
  case fuse7 =>
    exact nodeSound_seq_total .addi rfl rfl (fun _ _ _ => rfl) fun f hf s =>
      triple_aluImm hq (fun _ _ => by rfl) f.rs1 (h f hf) f.imm
  case fuse5 =>
    exact nodeSound_seq_total .shift rfl rfl (fun f _ s => fuseShiftExec_ok f s) fun f hf s =>
      triple_fuseShift hq (h f hf).1 (h f hf).2
  case fuse3 =>
    obtain ⟨hnarrow, hacc⟩ := h
    refine nodeSound_seq .sw rfl rfl (fun f _ s hf => ?_) (fun f _ s hf =>
      triple_store hq hnarrow .s32 f.rs1 f.rs2 f.imm hf.range hf.inside)
      ((stepwise_iff_forall storeEntry (fun f g s => Iff.rfl) _ s).mpr hacc)
    simp only [seqBody, fuseSw, checkAligned_of_aligned_word hf.aligned]
    rfl
  case fuse4 =>
    obtain ⟨hnarrow, hrd, hacc⟩ := h
    refine nodeSound_seq .lw rfl rfl (fun f _ s hf => ?_) (fun f hmem s hf =>
      triple_load hq hnarrow .s32 false f.rs1 (hrd f hmem) f.imm hf.range hf.inside rfl) hacc
    simp only [seqBody, fuseLw, checkAligned_of_aligned_word hf.aligned]
    rfl
  case fuse2 => exact nodeSound_pair rfl (fuse2_next rfl) (triple_fuse2 hq h.1 h.2)
  case fuse8 => exact nodeSound_pair rfl (fun _ => rfl) (triple_loadConst hq h (imm + imm2))
  case fuse9 =>
    obtain ⟨hrd, hrs2, hin, hal⟩ := h
    exact nodeSound_pair rfl (fuse9_next rfl hal) (triple_fuse9 hq hrd hrs2 hin)
  case fuse10 =>
    obtain ⟨hrd, hin, hal⟩ := h
    exact nodeSound_pair rfl (fuse10_next rfl hal) (triple_fuse10 hq hrd hin)
  all_goals exact absurd h id

end Nodes

end Rv32emu.Tier1
