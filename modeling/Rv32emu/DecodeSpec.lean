import Rv32emu.Decode

/-!
# What `rv_decode` guarantees

* `Insn.WellFormed` : the facts about a decoded node that the optimisers rely on without checking;
* `rvDecode_wellFormed` : every decoded node has them;
* `rvDecode_len` : outside `c.ebreak`, decoded as the 4-byte `ebreak`, the length in the opcode table
  is the number of bytes `block_translate` steps over.
-/

namespace Rv32emu

namespace Opcode

def isCondBranch : Opcode → Bool
  | .beq | .bne | .blt | .bge | .bltu | .bgeu => true
  | _ => false

def isBitManip : Opcode → Bool
  | .sh1add | .sh2add | .sh3add | .andn | .orn | .xnor | .clz | .ctz | .cpop | .max | .maxu | .min
  | .minu | .sextb | .sexth | .zexth | .rol | .ror | .rori | .orcb | .rev8 | .clmul | .clmulh
  | .clmulr | .bclr | .bclri | .bext | .bexti | .binv | .binvi | .bset | .bseti => true
  | _ => false

/-- The opcodes `WellFormed` says nothing about. -/
def isPlain (op : Opcode) : Bool :=
  !op.isCondBranch && !op.isBitManip && !(op == .cjalr) && !op.isFuse

end Opcode

/-- A branch leaves `rd` zeroed, a bit-manipulation node never has destination `x0`, and `c.jalr`
carries its source in `rd` as well. -/
structure Insn.WellFormed (ir : Insn) : Prop where
  branch_rd : ir.opcode.isCondBranch = true → ir.rd = 0
  bitManip_rd : ir.opcode.isBitManip = true → ir.rd ≠ 0
  cjalr_rd : ir.opcode = .cjalr → ir.rd = ir.rs1
  not_fuse : ir.opcode.isFuse = false

namespace Insn.WellFormed

theorem of_plain {ir : Insn} (h : ir.opcode.isPlain = true) : ir.WellFormed := by
  simp only [Opcode.isPlain, Bool.and_eq_true, Bool.not_eq_true', beq_eq_false_iff_ne] at h
  obtain ⟨⟨⟨hb, hm⟩, hj⟩, hf⟩ := h
  exact ⟨fun h => by simp [hb] at h, fun h => by simp [hm] at h, fun h => absurd h hj, hf⟩

/-- `pc` is stored after decoding. -/
theorem setPc {ir : Insn} (h : ir.WellFormed) (pc : Word) : ({ ir with pc } : Insn).WellFormed :=
  ⟨h.branch_rd, h.bitManip_rd, h.cjalr_rd, h.not_fuse⟩

end Insn.WellFormed

/-- Well formed, and of table length `n` unless it is an `ebreak`. -/
def Insn.Spec (n : Word) (ir : Insn) : Prop :=
  ir.WellFormed ∧ (ir.opcode = .ebreak ∨ ir.opcode.len = n)

theorem Insn.Spec.of_plain {n : Word} {ir : Insn} (h : ir.opcode.isPlain = true)
    (hlen : ir.opcode.len = n) : ir.Spec n :=
  ⟨.of_plain h, .inr hlen⟩

/-- `P` of the node, if the word is accepted. -/
def Decoded.Ok (P : Insn → Prop) : Decoded → Prop
  | .ok ir => P ir
  | _ => True

theorem Decoded.ok_select {P : Insn → Prop} {ir : Insn} {o : Option Opcode}
    (h : ∀ op, o = some op → P { ir with opcode := op }) : (Decoded.select ir o).Ok P := by
  cases o with
  | none => trivial
  | some op => exact h op rfl

/-! ## 32-bit words -/

theorem opLoad_spec (insn : Word) : (opLoad {} insn).Ok (Insn.Spec 4) := by
  refine Decoded.ok_select fun op h => ?_
  unfold opcodeOfLoad at h
  split at h <;> cases h <;> exact .of_plain rfl rfl

theorem opStore_spec (insn : Word) : (opStore {} insn).Ok (Insn.Spec 4) := by
  refine Decoded.ok_select fun op h => ?_
  unfold opcodeOfStore at h
  split at h <;> cases h <;> exact .of_plain rfl rfl

theorem opBranch_spec (insn : Word) : (opBranch {} insn).Ok (Insn.Spec 4) := by
  refine Decoded.ok_select fun op h => ?_
  unfold opcodeOfBranch at h
  split at h <;> cases h <;> exact
    ⟨⟨fun _ => rfl, by simp [Opcode.isBitManip], by simp, rfl⟩, .inr rfl⟩

theorem opAmo_spec (insn : Word) : (opAmo {} insn).Ok (Insn.Spec 4) := by
  refine Decoded.ok_select fun op h => ?_
  unfold opcodeOfAmo at h
  split at h <;> cases h <;> exact .of_plain rfl rfl

theorem opOpFp_spec (insn : Word) : (opOpFp {} insn).Ok (Insn.Spec 4) := by
  refine Decoded.ok_select fun op h => ?_
  unfold opcodeOfOpFp at h
  repeat' split at h
  all_goals cases h <;> exact .of_plain rfl rfl

theorem opcodeOfOpImm_class {imm : Word} {f3 : Nat} {op : Opcode}
    (h : opcodeOfOpImm imm f3 = some op) :
    op.isCondBranch = false ∧ op ≠ .cjalr ∧ op.isFuse = false ∧ op.len = 4 := by
  unfold opcodeOfOpImm opcodeOfSlli opcodeOfSrli at h
  repeat' split at h
  all_goals cases h <;> exact ⟨rfl, by decide, rfl, rfl⟩

theorem opcodeOfOp_class {rs2 : Reg} {f3 f7 : Nat} {op : Opcode}
    (h : opcodeOfOp rs2 f3 f7 = some op) :
    op.isCondBranch = false ∧ op ≠ .cjalr ∧ op.isFuse = false ∧ op.len = 4 := by
  unfold opcodeOfOp at h
  repeat' split at h
  all_goals cases h <;> exact ⟨rfl, by decide, rfl, rfl⟩

theorem opOpImm_spec (insn : Word) : (opOpImm {} insn).Ok (Insn.Spec 4) := by
  unfold opOpImm
  simp only
  split
  · exact .of_plain rfl rfl
  · rename_i hrd
    split
    · rename_i op h
      obtain ⟨hb, hj, hf, hl⟩ := opcodeOfOpImm_class h
      exact ⟨⟨fun h => by simp [hb] at h, fun _ => hrd, fun h => absurd h hj, hf⟩, .inr hl⟩
    · trivial

theorem opOp_spec (insn : Word) : (opOp {} insn).Ok (Insn.Spec 4) := by
  unfold opOp
  simp only
  split
  · exact .of_plain rfl rfl
  · rename_i hrd
    refine Decoded.ok_select fun op h => ?_
    obtain ⟨hb, hj, hf, hl⟩ := opcodeOfOp_class h
    exact ⟨⟨fun h => by simp [hb] at h, fun _ => hrd, fun h => absurd h hj, hf⟩, .inr hl⟩

theorem opSystem_spec (system : Bool) (insn : Word) : (opSystem system {} insn).Ok (Insn.Spec 4) := by
  unfold opSystem
  simp only
  split
  · rename_i op h
    split
    · unfold opcodeOfSystem at h
      repeat' split at h
      all_goals cases h <;> exact .of_plain rfl rfl
    · trivial
  · trivial

theorem rvJumpTable_spec (system : Bool) (insn : Word) : (rvJumpTable system {} insn).Ok (Insn.Spec 4) := by
  unfold rvJumpTable
  split
  · exact opLoad_spec insn
  · exact .of_plain rfl rfl
  · unfold opMiscMem
    split <;> first | trivial | exact .of_plain rfl rfl
  · exact opOpImm_spec insn
  · unfold opAuipc
    simp only
    split <;> exact .of_plain rfl rfl
  · exact opStore_spec insn
  · exact .of_plain rfl rfl
  · exact opAmo_spec insn
  · exact opOp_spec insn
  · unfold opLui
    simp only
    split <;> exact .of_plain rfl rfl
  · exact .of_plain rfl rfl
  · exact .of_plain rfl rfl
  · exact .of_plain rfl rfl
  · exact .of_plain rfl rfl
  · exact opOpFp_spec insn
  · exact opBranch_spec insn
  · exact .of_plain rfl rfl
  · exact .of_plain rfl rfl
  · exact opSystem_spec system insn
  · trivial

/-! ## RVC encodings -/

theorem opCcr_spec (insn : Word) : (opCcr {} insn).Ok (Insn.Spec 2) := by
  unfold opCcr
  simp only
  split
  · split
    · split
      · trivial
      · exact .of_plain rfl rfl
    · split <;> exact .of_plain rfl rfl
  · split
    -- `c.ebreak`
    · exact ⟨.of_plain rfl, .inl rfl⟩
    · split
      · exact .of_plain rfl rfl
      · split
        · exact ⟨⟨by simp [Opcode.isCondBranch], by simp [Opcode.isBitManip], fun _ => rfl, rfl⟩,
            .inr rfl⟩
        · exact .of_plain rfl rfl

theorem opCmiscAlu_spec (insn : Word) : (opCmiscAlu {} insn).Ok (Insn.Spec 2) := by
  unfold opCmiscAlu
  split
  · simp only
    split
    · trivial
    · split <;> exact .of_plain rfl rfl
  · simp only
    split
    · trivial
    · exact .of_plain rfl rfl
  · exact .of_plain rfl rfl
  · split
    · rename_i op h
      unfold opcodeOfCa at h
      split at h <;> cases h <;> exact .of_plain rfl rfl
    · trivial

theorem rvcJumpTable_spec (insn : Word) : (rvcJumpTable {} insn).Ok (Insn.Spec 2) := by
  unfold rvcJumpTable
  split
  case h_11 => exact opCmiscAlu_spec insn
  case h_12 => exact opCcr_spec insn
  all_goals
    first
      | trivial
      | exact .of_plain rfl rfl
      | (simp only [opCaddi4spn, opCaddi, opCslli, opClwsp, opClui]
         repeat' split
         all_goals first | trivial | exact .of_plain rfl rfl)

/-! ## `rv_decode` -/

/-- **Decoded nodes are well formed.** -/
theorem rvDecode_wellFormed {extC : Bool} {insn : Word} {ir : Insn}
    (h : rvDecode extC insn = .ok ir) : ir.WellFormed := by
  unfold rvDecode rvDecodeInto at h
  split at h
  · have hs := rvcJumpTable_spec (insn &&& 0xffff)
    rw [h] at hs
    exact hs.1
  · have hs := rvJumpTable_spec false insn
    rw [h] at hs
    exact hs.1

/-- **The opcode table and the decoder agree on lengths.** -/
theorem rvDecode_len {insn : Word} {ir : Insn} (h : rvDecode true insn = .ok ir)
    (hne : ir.opcode ≠ .ebreak) : ir.opcode.len = insnLen insn := by
  unfold rvDecode rvDecodeInto at h
  unfold insnLen
  split at h
  · rename_i hc
    have hs := rvcJumpTable_spec (insn &&& 0xffff)
    rw [h] at hs
    simp only [Bool.true_and] at hc
    simpa [hc, hne] using hs.2
  · rename_i hc
    have hs := rvJumpTable_spec false insn
    rw [h] at hs
    simp only [Bool.true_and] at hc
    simpa [hc, hne] using hs.2

end Rv32emu
