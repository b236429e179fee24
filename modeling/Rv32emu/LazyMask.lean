import Rv32emu.LazyFusion
import Rv32emu.RegFrame

/-!
# The registers recorded for lazy fusion

`match_pattern` keeps a mask of the registers that the nodes before a candidate write. It goes by their `rd`.

* `Recorded` : a register in a mask; `safe_base` : what `lazy_fusion_safe_base_regs` has made sure of;
* `matchAtMmio_recorded` : a node that has been passed has the registers it may load recorded;
* `matchPatternMmio_candidate` : so at a candidate those of every node before it are.
-/

namespace Rv32emu

/-! ## Masks -/

def Recorded (m : Word) (r : Reg) : Prop := m.getLsbD r.toNat = true

theorem recorded_or {m n : Word} {r : Reg} : Recorded (m ||| n) r ↔ Recorded m r ∨ Recorded n r := by
  simp [Recorded]

theorem recorded_and {m n : Word} {r : Reg} : Recorded (m &&& n) r ↔ Recorded m r ∧ Recorded n r := by
  simp [Recorded]

theorem not_recorded_zero (r : Reg) : ¬ Recorded 0 r := by simp [Recorded]

theorem recorded_not_one : ∀ r : Reg, r ≠ 0 → Recorded (~~~1) r := by
  unfold Recorded
  decide

theorem recorded_shift {q r : Reg} : Recorded ((1 : Word) <<< q.toNat) r ↔ q = r := by
  have hq := q.isLt
  have hr := r.isLt
  simp only [Recorded, BitVec.getLsbD_shiftLeft, ← BitVec.toNat_inj]
  simp
  omega

theorem recorded_regBit {q r : Reg} : Recorded (regBit q) r ↔ q ≠ 0 ∧ q = r := by
  unfold regBit
  split
  · rename_i hq
    rw [recorded_shift]
    exact (and_iff_right hq).symm
  · rename_i hq
    exact iff_of_false (not_recorded_zero r) fun h => hq h.1

theorem and_eq_zero_iff {m n : Word} : m &&& n = 0 ↔ ∀ r, Recorded m r → ¬ Recorded n r := by
  constructor
  · intro h r hm hn
    have hboth := recorded_and.mpr ⟨hm, hn⟩
    rw [h] at hboth
    exact not_recorded_zero r hboth
  · intro h
    refine BitVec.eq_of_getLsbD_eq fun i hi => ?_
    have hbit := h (BitVec.ofNat 5 i)
    simp only [Recorded, BitVec.toNat_ofNat, Nat.mod_eq_of_lt (show i < 2 ^ 5 by omega)] at hbit
    simpa using hbit

theorem recorded_foldl {α : Type} (f : α → Word) (l : List α) (m : Word) (r : Reg) :
    Recorded (l.foldl (fun m x => m ||| f x) m) r ↔ Recorded m r ∨ ∃ x ∈ l, Recorded (f x) r := by
  induction l generalizing m with
  | nil => simp
  | cons x l ih =>
    rw [List.foldl_cons, ih, recorded_or, List.exists_mem_cons_iff, or_assoc]

theorem recorded_rdMask {irs : List Insn} {r : Reg} : Recorded (rdMask irs) r ↔ ∃ ir ∈ irs, ir.rd ≠ 0 ∧ ir.rd = r := by
  unfold rdMask
  rw [recorded_foldl]
  simp only [recorded_regBit, not_recorded_zero, false_or]

/-! ## The check of the bases -/

theorem chasesPointer_base {written : Word} {a b : List Insn} {e : Insn}
    (h : chasesPointer written (a ++ e :: b) = false) (hbase : e.rs1 ≠ 0) :
    ¬ Recorded written e.rs1 ∧ ∀ x ∈ a, x.rd ≠ e.rs1 := by
  induction a generalizing written with
  | nil =>
    simp only [List.nil_append, chasesPointer, Bool.or_eq_false_iff, decide_eq_false_iff_not, not_and, not_not] at h
    refine ⟨fun hw => ?_, by simp⟩
    exact and_eq_zero_iff.mp (h.1 hbase) e.rs1 hw (recorded_shift.mpr rfl)
  | cons x a ih =>
    simp only [List.cons_append, chasesPointer, Bool.or_eq_false_iff] at h
    obtain ⟨hw, ha⟩ := ih h.2
    rw [recorded_or, not_or, recorded_regBit] at hw
    refine ⟨hw.1, ?_⟩
    rintro y (_ | hy)
    · exact fun heq => hw.2 ⟨heq ▸ hbase, heq⟩
    · exact ha y ‹_›

/-- **What `lazy_fusion_safe_base_regs` has made sure of**: the base of an element is not recorded as modified
before, nor loaded by an element before it. -/
theorem safe_base {m : Word} {c : LazyCandidate} (h : lazyFusionSafeBaseRegs m c = true) {a b : List Insn} {e : Insn}
    (hsplit : c.irs = a ++ e :: b) (hbase : e.rs1 ≠ 0) :
    ¬ Recorded m e.rs1 ∧ (c.isLoad = true → ∀ x ∈ a, x.rd ≠ e.rs1) := by
  have hmask : Recorded (c.irs.foldl (fun m ir => m ||| (1 : Word) <<< ir.rs1.toNat) 0 &&& ~~~1) e.rs1 := by
    have hfold : Recorded (c.irs.foldl (fun m ir => m ||| (1 : Word) <<< ir.rs1.toNat) 0) e.rs1 := by
      refine (recorded_foldl ..).mpr (.inr ⟨e, ?_, recorded_shift.mpr rfl⟩)
      rw [hsplit]
      exact List.mem_append_right _ (List.mem_cons_self ..)
    exact recorded_and.mpr ⟨hfold, recorded_not_one e.rs1 hbase⟩
  unfold lazyFusionSafeBaseRegs at h
  simp only at h
  generalize c.irs.foldl (fun m ir => m ||| (1 : Word) <<< ir.rs1.toNat) 0 &&& ~~~1 = rs1Mask at h hmask
  split_ifs at h with hzero harg hmod
  · rw [hzero] at hmask
    exact (not_recorded_zero _ hmask).elim
  · refine ⟨and_eq_zero_iff.mp (not_not.mp hmod) e.rs1 hmask, fun hload => ?_⟩
    rw [hload, Bool.true_and, Bool.not_eq_true', hsplit] at h
    exact (chasesPointer_base h hbase).2

/-! ## The registers recorded at a node -/

/-- An unfused node loads at most its `rd`. -/
theorem dests_of_not_fuse {ir : Insn} (h : ir.opcode.isFuse = false) {q : Reg} (hq : q ∈ ir.dests) : q = ir.rd := by
  have hone (hq : q ∈ [ir.rd]) : q = ir.rd := List.mem_singleton.mp hq
  have hnz (hq : q ∈ if ir.rd = regZero then [] else [ir.rd]) : q = ir.rd := by
    split at hq
    · cases hq
    · exact hone hq
  obtain ⟨imm, rd, rs1, rs2, opcode, shamt, rm, imm2, fuse, ipc⟩ := ir
  cases opcode
  all_goals first
    | exact hone hq
    | exact hnz hq
    | exact absurd hq List.not_mem_nil
    | cases h

/-- The nodes that may stand in place of a run: their copies are among those whose `rd` is recorded. -/
theorem tryFuseSequence_dests {p : Opcode → Bool} {op : Opcode} (hseq : SeqFusion p op) (alloc : Word → Bool)
    {ir : Insn}
    (hir : ir.opcode.isFuse = false) (rest : List Insn) {q : Reg}
    (hq : q ∈ (tryFuseSequence alloc ir rest (countConsecutive p rest) op).1.dests) :
    ∃ x ∈ (ir :: rest).take (countConsecutive p rest), x.rd = q := by
  have hcount : 0 < countConsecutive p rest := by
    unfold countConsecutive
    omega
  have hhead : ir ∈ (ir :: rest).take (countConsecutive p rest) := by
    rw [List.take_cons hcount]
    exact List.mem_cons_self ..
  have hself (hq : q ∈ ir.dests) : ∃ x ∈ (ir :: rest).take (countConsecutive p rest), x.rd = q :=
    ⟨ir, hhead, (dests_of_not_fuse hir hq).symm⟩
  unfold tryFuseSequence at hq
  split_ifs at hq
  · exact hself hq
  · exact hself hq
  · have hcopies : q ∈ ((ir.toFuse :: (rest.take (countConsecutive p rest - 1)).map Insn.toFuse).take
        (BitVec.ofNat 32 (countConsecutive p rest)).toNat).map OpcodeFuse.rd := by
      cases hseq <;> first | exact hq | cases hq
    obtain ⟨f, hf, rfl⟩ := List.mem_map.mp hcopies
    have hf := List.mem_of_mem_take hf
    rw [← List.map_cons, List.mem_map] at hf
    obtain ⟨x, hx, rfl⟩ := hf
    rw [List.take_cons hcount]
    exact ⟨x, hx, rfl⟩
  · exact hself hq

theorem matchAt_fuse11 (alloc : Word → Bool) {ir next : Insn} (rest : List Insn) (hop : ir.opcode = .lw)
    (h : next.opcode = .addi ∧ ir.rs1 = next.rs1 ∧ next.rs1 = next.rd ∧ ir.rd ≠ ir.rs1) :
    matchAt alloc ir next rest = ({ ir with imm2 := next.imm, opcode := .fuse11 }, 1) := by
  simp only [matchAt, hop]
  exact if_pos h

/-- **The registers that a node may load are recorded** once the node has been passed. -/
theorem matchAtMmio_recorded (alloc : Word → Bool) {ir : Insn} (hir : ir.opcode.isFuse = false) (next : Insn)
    (rest : List Insn) {q : Reg} (hq : q ∈ (matchAtMmio alloc ir next rest).1.dests) (hnz : q ≠ 0) :
    Recorded (recordedRegs ir next rest ||| regBit (matchAtMmio alloc ir next rest).1.rd) q := by
  have hself (m : Word) (hq : q ∈ ir.dests) : Recorded (m ||| regBit ir.rd) q := by
    have hrd := dests_of_not_fuse hir hq
    exact recorded_or.mpr (.inr (recorded_regBit.mpr ⟨hrd ▸ hnz, hrd.symm⟩))
  have hbit {m : Word} {r : Reg} (hr : q = r) : Recorded (m ||| regBit r) q :=
    recorded_or.mpr (.inr (recorded_regBit.mpr ⟨hr ▸ hnz, hr.symm⟩))
  have htwo {r r' : Reg} (hq : q ∈ [r, r']) : Recorded (regBit r' ||| regBit r) q := by
    simp only [List.mem_cons, List.not_mem_nil, or_false] at hq
    obtain hq | hq := hq
    · exact hbit hq
    · exact recorded_or.mpr (.inl (recorded_regBit.mpr ⟨hq ▸ hnz, hq.symm⟩))
  have hseq {p : Opcode → Bool} {op : Opcode} (hseq : SeqFusion p op)
      (hq : q ∈ (tryFuseSequence alloc ir (next :: rest) (countConsecutive p (next :: rest)) op).1.dests) (r : Reg) :
      Recorded (rdMask ((ir :: next :: rest).take (countConsecutive p (next :: rest))) ||| regBit r) q := by
    obtain ⟨x, hx, hrd⟩ := tryFuseSequence_dests hseq alloc hir _ hq
    exact recorded_or.mpr (.inl (recorded_rdMask.mpr ⟨x, hx, hrd ▸ hnz, hrd⟩))
  unfold matchAtMmio at hq ⊢
  unfold recordedRegs
  simp only
  cases hop : ir.opcode
  case lw =>
    simp only [hop] at hq ⊢
    split_ifs at hq ⊢ with h
    · rw [matchAt_fuse11 alloc rest hop h] at hq ⊢
      exact htwo hq
    · exact hself _ hq
  case sw =>
    simp only [hop] at hq ⊢
    exact hself _ hq
  case lui =>
    simp only [hop, matchAt] at hq ⊢
    cases hnext : next.opcode
    case add =>
      simp only [hnext] at hq ⊢
      by_cases h : ir.rd = next.rs2 ∨ ir.rd = next.rs1
      · rw [if_pos h] at hq ⊢
        rw [if_pos h]
        exact htwo hq
      · rw [if_neg h] at hq ⊢
        rw [if_neg h]
        exact hself _ hq
    case lw =>
      simp only [hnext] at hq ⊢
      split_ifs at hq ⊢
      · exact htwo hq
      · exact hself _ hq
    case addi | sw =>
      simp only [hnext] at hq ⊢
      split_ifs at hq ⊢
      · exact hbit (List.mem_singleton.mp hq)
      · exact hself _ hq
    case lui =>
      simp only [hnext] at hq ⊢
      exact hseq .lui hq _
    all_goals
      simp only [hnext] at hq ⊢
      exact hself _ hq
  case slli | srli | srai =>
    simp only [hop, matchAt] at hq ⊢
    exact hseq .shift hq _
  case addi =>
    simp only [hop, matchAt] at hq ⊢
    split_ifs at hq ⊢
    · cases hq
    · cases hq
    · exact hseq .addi hq _
  all_goals
    simp only [hop, matchAt] at hq ⊢
    exact hself _ hq

theorem lazyRun_some {n : Nat} {m : Word} {irs : List Insn} {c : LazyCandidate} (h : lazyRun n m irs = some c) :
    lazyFusionSafeBaseRegs m c = true ∧ c.count = BitVec.ofNat 8 c.irs.length := by
  have htry {isLoad : Bool} (h : (if 1 < (LazyCandidate.ofRun isLoad irs).irs.length ∧ n < maxLazyCandidates ∧
      lazyFusionSafeBaseRegs m (.ofRun isLoad irs) then some (LazyCandidate.ofRun isLoad irs) else none) = some c) :
      lazyFusionSafeBaseRegs m c = true ∧ c.count = BitVec.ofNat 8 c.irs.length := by
    split_ifs at h with hsafe
    obtain rfl := Option.some.inj h
    exact ⟨hsafe.2.2, rfl⟩
  unfold lazyRun at h
  split at h
  · split at h
    · exact htry h
    · split_ifs at h
      exact htry h
    · cases h
  · cases h

/-- The elements of a candidate load what is recorded for it. -/
theorem LazyCandidate.recorded {c : LazyCandidate} {ir : Insn} (hir : ir ∈ c.irs) {q : Reg} (hq : q ∈ ir.dests)
    (hnz : q ≠ 0) : Recorded c.recordedRegs q := by
  have hop := c.ops ir hir
  unfold recordedRegs
  cases hload : c.isLoad with
  | true =>
    rw [hload, if_pos rfl] at hop
    simp only [Insn.dests, hop] at hq
    have hrd := List.mem_singleton.mp hq
    exact recorded_rdMask.mpr ⟨ir, hir, hrd ▸ hnz, hrd.symm⟩
  | false =>
    rw [hload, if_neg (by decide)] at hop
    simp only [Insn.dests, hop] at hq
    cases hq

/-- **At a candidate, every register that a node before it may load is recorded**, and the check of the bases has
passed. -/
theorem matchPatternMmio_candidate {alloc : Word → Bool} {irs : List Insn} (hirs : ∀ ir ∈ irs, ir.opcode.isFuse = false)
    (n : Nat) (m : Word) {pre suf : List Seg} {c : LazyCandidate}
    (h : matchPatternMmio alloc n m irs = pre ++ .candidate c :: suf) :
    ∃ m', lazyFusionSafeBaseRegs m' c = true ∧ c.count = BitVec.ofNat 8 c.irs.length ∧
      (∀ q, Recorded m q → Recorded m' q) ∧
      ∀ seg ∈ pre, ∀ ir ∈ seg.irs, ∀ q ∈ ir.dests, q ≠ 0 → Recorded m' q := by
  induction n, m, irs using matchPatternMmio.induct alloc generalizing pre with
  | case1 n m =>
    rw [matchPatternMmio] at h
    cases pre <;> cases h
  | case2 n m ir =>
    rw [matchPatternMmio] at h
    obtain _ | ⟨seg, pre⟩ := pre
    · cases h
    · cases pre <;> cases h
  | case3 n m ir next rest c' hrun ih =>
    rw [matchPatternMmio, hrun] at h
    obtain _ | ⟨seg, pre⟩ := pre
    · obtain ⟨hsafe, hcount⟩ := lazyRun_some hrun
      cases h
      exact ⟨m, hsafe, hcount, fun _ hq => hq, by simp⟩
    · obtain ⟨rfl, htail⟩ := List.cons_eq_cons.mp h
      obtain ⟨m', hsafe, hcount, hmono, hpre⟩ :=
        ih (fun x hx => hirs x (List.mem_cons_of_mem _ (List.mem_of_mem_drop hx))) htail
      refine ⟨m', hsafe, hcount, fun q hq => hmono q (recorded_or.mpr (.inl hq)), ?_⟩
      rintro seg (_ | hseg)
      · exact fun x hx q hq hnz => hmono q (recorded_or.mpr (.inr (c'.recorded hx hq hnz)))
      · exact hpre seg ‹_›
  | case4 n m ir next rest hrun r ih =>
    rw [matchPatternMmio, hrun] at h
    obtain _ | ⟨seg, pre⟩ := pre
    · cases h
    · obtain ⟨rfl, htail⟩ := List.cons_eq_cons.mp h
      obtain ⟨m', hsafe, hcount, hmono, hpre⟩ :=
        ih (fun x hx => hirs x (List.mem_cons_of_mem _ (List.mem_of_mem_drop hx))) htail
      have hfuse := hirs ir (List.mem_cons_self ..)
      refine ⟨m', hsafe, hcount, fun q hq => hmono q (recorded_or.mpr (.inl (recorded_or.mpr (.inl hq)))), ?_⟩
      rintro seg (_ | hseg)
      · intro x hx q hq hnz
        obtain rfl := List.mem_singleton.mp hx
        refine hmono q ?_
        rw [BitVec.or_assoc]
        exact recorded_or.mpr (.inr (matchAtMmio_recorded alloc hfuse next rest hq hnz))
      · exact hpre seg ‹_›

end Rv32emu
