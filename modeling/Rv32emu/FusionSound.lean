import Rv32emu.ConstoptSound
import Rv32emu.Fusion

/-!
# Fused blocks run like unfused ones

`match_pattern` is described by what it can put in place of a run of nodes: `FusedFrom node l`
(`matchAt_fusedFrom`), and a rewritten list is a list of such groups (`matchGroups`).

* `FusedFrom.run` : a fused node does what its nodes do, if these do not trap;
* `matchPattern_preserves_iff` : a block and its fused form end alike, on runs without a trap,
  exactly if a fused loop counter is not confused by a non-zero `x0` (`LoopOk`).
-/

namespace Rv32emu

/-! ## Running nodes one after the other -/

/-- The nodes of a list that something follows. -/
def runThrough (env : Env) : List Insn → BitVec 64 → Word → Cpu → Ctl
  | [], cycle, pc, s => .next cycle pc s
  | ir :: irs, cycle, pc, s => (impl env ir {} false cycle pc s).andThen (runThrough env irs)

@[simp] theorem Ctl.andThen_next (cycle : BitVec 64) (pc : Word) (s : Cpu)
    (k : BitVec 64 → Word → Cpu → Ctl) : (Ctl.next cycle pc s).andThen k = k cycle pc s := rfl

@[simp] theorem Ctl.andThen_trap (t : Trap) (s : Cpu) (k : BitVec 64 → Word → Cpu → Ctl) :
    (Ctl.trap t s).andThen k = .trap t s := rfl

theorem Ctl.andThen_assoc (r : Ctl) (k k' : BitVec 64 → Word → Cpu → Ctl) :
    (r.andThen k).andThen k' = r.andThen fun cycle pc s => (k cycle pc s).andThen k' := by
  cases r <;> rfl

theorem Ctl.isTrap_of_andThen {r : Ctl} {k : BitVec 64 → Word → Cpu → Ctl}
    (h : (r.andThen k).isTrap = false) : r.isTrap = false := by
  cases r <;> first | rfl | exact h

theorem runThrough_append (env : Env) (l l' : List Insn) (cycle : BitVec 64) (pc : Word) (s : Cpu) :
    runThrough env (l ++ l') cycle pc s = (runThrough env l cycle pc s).andThen (runThrough env l') := by
  induction l generalizing cycle pc s with
  | nil => rfl
  | cons ir l ih =>
    simp only [List.cons_append, runThrough, Ctl.andThen_assoc]
    congr 1
    funext cycle pc s
    exact ih cycle pc s

theorem endOp_noLinks (ir : Insn) (cycle : BitVec 64) (pc : Word) (s : Cpu) :
    endOp ir {} cycle pc s = .ret true (s.save cycle pc) := by
  unfold endOp
  split <;> simp_all

theorem doRvop_noNext (env : Env) (ir : Insn) (noNext : Bool) (cycle : BitVec 64) (pc : Word) (s : Cpu) :
    (doRvop env ir {} noNext cycle pc s).andThen (runIr env []) =
      (doRvop env ir {} false cycle pc s).andThen (runIr env []) := by
  cases noNext with
  | false => rfl
  | true =>
    simp only [doRvop]
    cases (rvop ir.opcode).exec env ir {} (cycle + 1) pc s <;>
      simp [endOp_noLinks, Ctl.andThen, runIr]

theorem fuseNextOrStop_andThen (env : Env) (noNext : Bool) (cycle : BitVec 64) (pc : Word) (s : Cpu) :
    (fuseNextOrStop noNext cycle pc s).andThen (runIr env []) = .ret true (s.save cycle pc) := by
  cases noNext <;> rfl

/-- `fuse_next_or_stop` and `end_op` without links only save what they would pass on. -/
theorem impl_noNext (env : Env) (ir : Insn) (noNext : Bool) (cycle : BitVec 64) (pc : Word) (s : Cpu) :
    (impl env ir {} noNext cycle pc s).andThen (runIr env []) =
      (impl env ir {} false cycle pc s).andThen (runIr env []) := by
  unfold impl
  split
  case h_1 | h_3 | h_4 | h_5 | h_7 =>
    simp only [doFuse1, doFuse3, doFuse4, doFuse5, doFuse7, fuseSeq]
    split <;> simp only [fuseNextOrStop_andThen]
  case h_2 => simp only [doFuse2, fuseNextOrStop_andThen]
  case h_8 => simp only [doFuse8, fuseNextOrStop_andThen]
  case h_9 | h_10 | h_11 =>
    simp only [doFuse9, doFuse10, doFuse11]
    split <;> simp only [fuseNextOrStop_andThen]
  case h_6 | h_12 => rfl
  case h_13 => exact doRvop_noNext ..

theorem runIr_cons (env : Env) (ir : Insn) (irs : List Insn) (cycle : BitVec 64) (pc : Word) (s : Cpu) :
    runIr env (ir :: irs) cycle pc s = (impl env ir {} false cycle pc s).andThen (runIr env irs) := by
  cases irs with
  | nil => exact impl_noNext ..
  | cons _ _ => rfl

theorem runIr_append (env : Env) (l l' : List Insn) (cycle : BitVec 64) (pc : Word) (s : Cpu) :
    runIr env (l ++ l') cycle pc s = (runThrough env l cycle pc s).andThen (runIr env l') := by
  induction l generalizing cycle pc s with
  | nil => rfl
  | cons ir l ih =>
    simp only [List.cons_append, runThrough, runIr_cons, Ctl.andThen_assoc]
    congr 1
    funext cycle pc s
    exact ih cycle pc s

/-! ## What `match_pattern` puts in place of a run of nodes -/

/-- The fusions of a run: the opcodes of its nodes and the fused opcode. -/
inductive SeqFusion : (Opcode → Bool) → Opcode → Prop
  | lui : SeqFusion (· == .lui) .fuse1
  | sw : SeqFusion (· == .sw) .fuse3
  | lw : SeqFusion (· == .lw) .fuse4
  | shift : SeqFusion isShiftImm .fuse5
  | addi : SeqFusion (· == .addi) .fuse7

/-- The node that `match_pattern` has in place of the nodes `l`. -/
inductive FusedFrom : Insn → List Insn → Prop
  | same (ir : Insn) : FusedFrom ir [ir]
  | seq {p : Opcode → Bool} {op : Opcode} (hseq : SeqFusion p op) (ir : Insn) (l : List Insn)
      (hall : ∀ x ∈ ir :: l, p x.opcode = true) (hlen : l.length < fuseMaxEntries) :
      FusedFrom { ir with opcode := op, imm2 := BitVec.ofNat 32 (l.length + 1),
                          fuse := (ir :: l).map Insn.toFuse } (ir :: l)
  | fuse2 (ir next : Insn) (hop : ir.opcode = .lui) (hnext : next.opcode = .add)
      (hrd : ir.rd = next.rs2 ∨ ir.rd = next.rs1) :
      FusedFrom { ir with opcode := .fuse2, rs2 := next.rd,
                          rs1 := if ir.rd = next.rs2 then next.rs1 else next.rs2 } [ir, next]
  | fuse6 (ir next : Insn) (hop : ir.opcode = .addi) (hnext : next.opcode = .ecall) :
      FusedFrom { ir with opcode := .fuse6 } [ir, next]
  | fuse8 (ir next : Insn) (hop : ir.opcode = .lui) (hnext : next.opcode = .addi)
      (hrs1 : ir.rd = next.rs1) (hrd : ir.rd = next.rd) :
      FusedFrom { ir with imm2 := next.imm, opcode := .fuse8 } [ir, next]
  | fuse9 (ir next : Insn) (hop : ir.opcode = .lui) (hnext : next.opcode = .lw)
      (hrs1 : ir.rd = next.rs1) :
      FusedFrom { ir with imm2 := next.imm, rs2 := next.rd, opcode := .fuse9 } [ir, next]
  | fuse10 (ir next : Insn) (hop : ir.opcode = .lui) (hnext : next.opcode = .sw)
      (hrs1 : ir.rd = next.rs1) :
      FusedFrom { ir with imm2 := next.imm, rs1 := next.rs2, opcode := .fuse10 } [ir, next]
  | fuse11 (ir next : Insn) (hop : ir.opcode = .lw) (hnext : next.opcode = .addi)
      (hrs1 : ir.rs1 = next.rs1) (hrd : next.rs1 = next.rd) (hne : ir.rd ≠ ir.rs1) :
      FusedFrom { ir with imm2 := next.imm, opcode := .fuse11 } [ir, next]
  | fuse12 (ir next : Insn) (hop : ir.opcode = .addi) (hnext : next.opcode = .bne)
      (hrd : ir.rd ≠ regZero) (hrs1 : ir.rd = next.rs1) (hrs2 : next.rs2 = regZero) :
      FusedFrom { ir with imm2 := next.imm, opcode := .fuse12 } [ir, next]

theorem tryFuseSequence_fusedFrom {p : Opcode → Bool} {op : Opcode} (hseq : SeqFusion p op)
    (alloc : Word → Bool) (ir : Insn) (hir : p ir.opcode = true) (rest : List Insn) :
    FusedFrom (tryFuseSequence alloc ir rest (countConsecutive p rest) op).1
      (ir :: rest.take (tryFuseSequence alloc ir rest (countConsecutive p rest) op).2) := by
  unfold tryFuseSequence
  split_ifs with hone hmax halloc
  · exact .same ir
  · exact .same ir
  · simp only [countConsecutive, Nat.add_sub_cancel_left]
    have htake : rest.take (rest.takeWhile fun ir => p ir.opcode).length =
        rest.takeWhile fun ir => p ir.opcode :=
      (List.prefix_iff_eq_take.mp (List.takeWhile_prefix _)).symm
    rw [htake, Nat.add_comm]
    refine .seq hseq ir _ ?_ ?_
    · intro x hx
      rcases List.mem_cons.mp hx with rfl | hx
      · exact hir
      · exact List.mem_takeWhile_imp (p := fun ir : Insn => p ir.opcode) hx
    · simp only [countConsecutive] at hmax
      omega
  · exact .same ir

/-- **Inversion of the pattern `switch`.** -/
theorem matchAt_fusedFrom (alloc : Word → Bool) (ir next : Insn) (rest : List Insn) :
    FusedFrom (matchAt alloc ir next rest).1
      (ir :: (next :: rest).take (matchAt alloc ir next rest).2) := by
  unfold matchAt
  simp only
  split
  case h_1 hop =>
    split
    case h_1 hnext =>
      by_cases h : ir.rd = next.rs2 ∨ ir.rd = next.rs1
      · rw [if_pos h]
        exact .fuse2 ir next hop hnext h
      · rw [if_neg h]
        exact .same ir
    case h_2 hnext =>
      split_ifs with h
      · exact .fuse8 ir next hop hnext h.2.1 h.2.2
      · exact .same ir
    case h_3 hnext =>
      split_ifs with h
      · exact .fuse9 ir next hop hnext h.2
      · exact .same ir
    case h_4 hnext =>
      split_ifs with h
      · exact .fuse10 ir next hop hnext h.2.1
      · exact .same ir
    case h_5 => exact tryFuseSequence_fusedFrom .lui alloc ir (by rw [hop]; rfl) _
    case h_6 => exact .same ir
  case h_2 hop => exact tryFuseSequence_fusedFrom .sw alloc ir (by rw [hop]; rfl) _
  case h_3 hop =>
    split_ifs with h
    · exact .fuse11 ir next hop h.1 h.2.1 h.2.2.1 h.2.2.2
    · exact tryFuseSequence_fusedFrom .lw alloc ir (by rw [hop]; rfl) _
  case h_4 hop | h_5 hop | h_6 hop =>
    exact tryFuseSequence_fusedFrom .shift alloc ir (by rw [hop]; rfl) _
  case h_7 hop =>
    split_ifs with h h'
    · exact .fuse6 ir next hop h.2.2
    · exact .fuse12 ir next hop h'.1 h'.2.1 h'.2.2.1 h'.2.2.2
    · exact tryFuseSequence_fusedFrom .addi alloc ir (by rw [hop]; rfl) _
  case h_8 => exact .same ir

/-! ## Runs of one kind of node -/

def seqBody (env : Env) : Opcode → FuseBody
  | .fuse1 => fuseLui
  | .fuse3 => fuseSw env
  | .fuse4 => fuseLw env
  | .fuse5 => fuseShiftExec
  | _ => fuseAddi

namespace SeqFusion

variable (env : Env) {p : Opcode → Bool} {op : Opcode}

theorem impl_eq (hseq : SeqFusion p op) (ir : Insn) (hop : ir.opcode = op) (lk : Links) (noNext : Bool)
    (cycle : BitVec 64) (pc : Word) (s : Cpu) :
    impl env ir lk noNext cycle pc s = fuseSeq (seqBody env op) ir noNext cycle pc s := by
  cases hseq <;> simp only [impl, hop] <;> rfl

/-- One node of a run does what the loop body does with its copy. -/
theorem step (hseq : SeqFusion p op) {x : Insn} (hx : p x.opcode = true) (cycle : BitVec 64)
    (pc : Word) (s : Cpu) :
    impl env x {} false cycle pc s =
      match seqBody env op x.toFuse s with
      | .ok s => .next (cycle + 1) (pc + 4) s
      | .error (t, s) => .trap t (s.save (cycle + 1) pc) := by
  cases hseq with
  | lui | addi =>
    have hop := eq_of_beq hx
    simp only [impl, hop, doRvop]
    rfl
  | sw =>
    have hop : x.opcode = .sw := eq_of_beq hx
    simp only [impl, hop, doRvop, rvop, Code.exec, seqBody, fuseSw, checkAligned, Insn.toFuse, addrImm]
    by_cases hm : misaligned env 3 (s.X x.rs1 + x.imm) = true
    · simp only [hm, if_true]
      rfl
    · simp only [hm]
      rfl
  | lw =>
    have hop : x.opcode = .lw := eq_of_beq hx
    simp only [impl, hop, doRvop, rvop, Code.exec, seqBody, fuseLw, checkAligned, Insn.toFuse, addrImm]
    by_cases hm : misaligned env 3 (s.X x.rs1 + x.imm) = true
    · simp only [hm, if_true]
      rfl
    · simp only [hm]
      rfl
  | shift =>
    have hop : x.opcode = .slli ∨ x.opcode = .srli ∨ x.opcode = .srai := by
      revert hx
      unfold isShiftImm
      split <;> simp_all
    rcases hop with hop | hop | hop <;> simp only [impl, hop, doRvop, seqBody, fuseShiftExec,
      Insn.toFuse] <;> rfl

/-- A run of nodes and the loop over their copies stop at the same entry. -/
theorem runThrough (hseq : SeqFusion p op) (l : List Insn) (hall : ∀ x ∈ l, p x.opcode = true)
    (cycle : BitVec 64) (pc : Word) (s : Cpu) :
    (∃ s', (l.map Insn.toFuse).foldlM (fun s f => seqBody env op f s) s = .ok s' ∧
      Rv32emu.runThrough env l cycle pc s =
        .next (cycle + BitVec.ofNat 64 l.length) (pc + BitVec.ofNat 32 (4 * l.length)) s') ∨
    ∃ t s' k, k < l.length ∧
      (l.map Insn.toFuse).foldlM (fun s f => seqBody env op f s) s = .error (t, s') ∧
      Rv32emu.runThrough env l cycle pc s =
        .trap t (s'.save (cycle + BitVec.ofNat 64 (k + 1)) (pc + BitVec.ofNat 32 (4 * k))) := by
  induction l generalizing cycle pc s with
  | nil =>
    refine .inl ⟨s, rfl, ?_⟩
    simp [Rv32emu.runThrough]
  | cons x l ih =>
    have hstep := hseq.step env (hall x (by simp)) cycle pc s
    cases hbody : seqBody env op x.toFuse s with
    | error e =>
      refine .inr ⟨e.1, e.2, 0, by simp, ?_, ?_⟩
      · simp only [List.map_cons, List.foldlM_cons, hbody]
        rfl
      · rw [hbody] at hstep
        simp [Rv32emu.runThrough, hstep]
    | ok s1 =>
      rw [hbody] at hstep
      have hfold : ((x :: l).map Insn.toFuse).foldlM (fun s f => seqBody env op f s) s =
          (l.map Insn.toFuse).foldlM (fun s f => seqBody env op f s) s1 := by
        simp only [List.map_cons, List.foldlM_cons, hbody]
        rfl
      have hrun : Rv32emu.runThrough env (x :: l) cycle pc s =
          Rv32emu.runThrough env l (cycle + 1) (pc + 4) s1 := by
        simp only [Rv32emu.runThrough, hstep, Ctl.andThen_next]
      have hc : ∀ n, cycle + 1 + BitVec.ofNat 64 n = cycle + BitVec.ofNat 64 (n + 1) := by
        intro n
        rw [BitVec.add_assoc, BitVec.ofNat_add, BitVec.add_comm 1]
        rfl
      have hp : ∀ n, pc + 4 + BitVec.ofNat 32 (4 * n) = pc + BitVec.ofNat 32 (4 * (n + 1)) := by
        intro n
        rw [BitVec.add_assoc, Nat.mul_add, BitVec.ofNat_add, BitVec.add_comm 4]
        rfl
      rw [hfold, hrun, List.length_cons]
      rcases ih (fun y hy => hall y (by simp [hy])) (cycle + 1) (pc + 4) s1 with
        ⟨s', hok, hnext⟩ | ⟨t, s', k, hk, herr, htrap⟩
      · exact .inl ⟨s', hok, by rw [hnext, hc, hp]⟩
      · exact .inr ⟨t, s', k + 1, by omega, herr, by rw [htrap, hc, hp]⟩

/-- The fused node against the loop over its copies. -/
theorem impl_node (hseq : SeqFusion p op) (ir : Insn) (l : List Insn)
    (hlen : l.length < fuseMaxEntries) (lk : Links) (noNext : Bool) (cycle : BitVec 64) (pc : Word)
    (s : Cpu) :
    impl env { ir with opcode := op, imm2 := BitVec.ofNat 32 (l.length + 1),
                       fuse := (ir :: l).map Insn.toFuse } lk noNext cycle pc s =
      match ((ir :: l).map Insn.toFuse).foldlM (fun s f => seqBody env op f s) s with
      | .ok s => fuseNextOrStop noNext (cycle + BitVec.ofNat 64 (l.length + 1))
          (pc + BitVec.ofNat 32 (4 * (l.length + 1))) s
      | .error (t, s) => .trap t (s.save (cycle + BitVec.ofNat 64 (l.length + 1)) pc) := by
  have hn : (BitVec.ofNat 32 (l.length + 1)).toNat = l.length + 1 := by
    rw [BitVec.toNat_ofNat, Nat.mod_eq_of_lt]
    unfold fuseMaxEntries at hlen
    omega
  have hse : (BitVec.ofNat 32 (l.length + 1)).signExtend 64 = BitVec.ofNat 64 (l.length + 1) := by
    unfold fuseMaxEntries at hlen
    generalize l.length = n at hlen
    interval_cases n <;> rfl
  have hmul : BitVec.ofNat 32 (l.length + 1) * 4 = BitVec.ofNat 32 (4 * (l.length + 1)) := by
    rw [BitVec.ofNat_mul, BitVec.mul_comm]
    rfl
  rw [hseq.impl_eq env _ rfl]
  have htake : ((ir :: l).map Insn.toFuse).take (l.length + 1) = (ir :: l).map Insn.toFuse :=
    List.take_of_length_le (by simp)
  unfold fuseSeq
  cases hfold : ((ir :: l).map Insn.toFuse).foldlM (fun s f => seqBody env op f s) s with
  | ok s' => simp only [hn, hse, hmul, htake, hfold]
  | error e => simp only [hn, hse, htake, hfold]

end SeqFusion

/-! ## A fused node -/

theorem runThrough_single (env : Env) (ir : Insn) (cycle : BitVec 64) (pc : Word) (s : Cpu) :
    runThrough env [ir] cycle pc s = impl env ir {} false cycle pc s := by
  simp only [runThrough]
  cases impl env ir {} false cycle pc s <;> rfl

section Steps

variable {env : Env} {ir : Insn} {lk : Links} {cycle : BitVec 64} {pc : Word} {s : Cpu}

theorem impl_lui (hop : ir.opcode = .lui) :
    impl env ir lk false cycle pc s = .next (cycle + 1) (pc + 4) (s.setX ir.rd ir.imm) := by
  simp only [impl, hop, doRvop]
  rfl

theorem impl_addi (hop : ir.opcode = .addi) :
    impl env ir lk false cycle pc s =
      .next (cycle + 1) (pc + 4) (s.setX ir.rd (s.X ir.rs1 + ir.imm)) := by
  simp only [impl, hop, doRvop]
  rfl

theorem impl_add (hop : ir.opcode = .add) :
    impl env ir lk false cycle pc s =
      .next (cycle + 1) (pc + 4) (s.setX ir.rd (s.X ir.rs1 + s.X ir.rs2)) := by
  simp only [impl, hop, doRvop]
  rfl

theorem impl_lw (hop : ir.opcode = .lw) :
    impl env ir lk false cycle pc s =
      if misaligned env 3 (s.X ir.rs1 + ir.imm) then
        .trap ⟨.loadMisaligned, s.X ir.rs1 + ir.imm, .retFalse⟩
          ({ s with compressed := false }.save (cycle + 1) pc)
      else .next (cycle + 1) (pc + 4) (s.setX ir.rd (s.memReadW (s.X ir.rs1 + ir.imm))) := by
  simp only [impl, hop, doRvop, rvop, Code.exec, addrImm]
  by_cases hm : misaligned env 3 (s.X ir.rs1 + ir.imm) = true
  · simp only [hm, if_true]
    rfl
  · simp only [hm]
    rfl

theorem impl_sw (hop : ir.opcode = .sw) :
    impl env ir lk false cycle pc s =
      if misaligned env 3 (s.X ir.rs1 + ir.imm) then
        .trap ⟨.storeMisaligned, s.X ir.rs1 + ir.imm, .retFalse⟩
          ({ s with compressed := false }.save (cycle + 1) pc)
      else .next (cycle + 1) (pc + 4) (s.memWriteW (s.X ir.rs1 + ir.imm) (s.X ir.rs2)) := by
  simp only [impl, hop, doRvop, rvop, Code.exec, addrImm]
  by_cases hm : misaligned env 3 (s.X ir.rs1 + ir.imm) = true
  · simp only [hm, if_true]
    rfl
  · simp only [hm]
    rfl

theorem impl_bne (hop : ir.opcode = .bne) :
    impl env ir {} false cycle pc s =
      if s.X ir.rs1 = s.X ir.rs2 then .next (cycle + 1) (pc + 4) { s with isBranchTaken := false }
      else if insnMisaligned env (pc + ir.imm) then
        .trap ⟨.insnMisaligned, pc, .retFalse⟩
          ({ s with isBranchTaken := true, compressed := false }.save (cycle + 1) (pc + ir.imm))
      else .ret true ({ s with isBranchTaken := true }.save (cycle + 1) (pc + ir.imm)) := by
  simp only [impl, hop, doRvop, rvop, Code.exec]
  by_cases hx : s.X ir.rs1 = s.X ir.rs2
  · simp only [hx, beq_self_eq_true, if_true]
    rfl
  · simp only [hx, beq_eq_false_iff_ne.mpr hx]
    by_cases hm : insnMisaligned env (pc + ir.imm) = true
    · simp only [hm, if_true]
      rfl
    · simp only [hm]
      exact endOp_noLinks ..

theorem impl_ecall_isTrap (hop : ir.opcode = .ecall) :
    (impl env ir lk false cycle pc s).isTrap = true := by
  simp only [impl, hop, doRvop]
  rfl

end Steps

@[simp] theorem Cpu.setX_self (s : Cpu) (r : Reg) (v : Word) : (s.setX r v).X r = v :=
  Function.update_self ..

theorem Cpu.setX_of_ne (s : Cpu) {r q : Reg} (h : q ≠ r) (v : Word) : (s.setX r v).X q = s.X q :=
  Function.update_of_ne h ..

@[simp] theorem Cpu.setX_setX (s : Cpu) (r : Reg) (v w : Word) : (s.setX r v).setX r w = s.setX r w := by
  simp [Cpu.setX]

theorem cycle_two (cycle : BitVec 64) : cycle + 1 + 1 = cycle + 2 := by
  rw [BitVec.add_assoc]
  rfl

theorem pc_eight (pc : Word) : pc + 4 + 4 = pc + 8 := by
  rw [BitVec.add_assoc]
  rfl

/-- Two nodes that fall through or trap, each written as a step on the state. -/
theorem runThrough_pair {env : Env} {ir next : Insn} {cycle : BitVec 64} {pc : Word} {s s1 : Cpu}
    (h : impl env ir {} false cycle pc s = .next (cycle + 1) (pc + 4) s1) :
    runThrough env [ir, next] cycle pc s = impl env next {} false (cycle + 1) (pc + 4) s1 := by
  simp only [runThrough, h, Ctl.andThen_next]
  exact runThrough_single ..

/-- **A fused node does what its nodes do**, if these do not trap and do not end in the loop branch
of `fuse12`. -/
theorem FusedFrom.run {node : Insn} {l : List Insn} (h : FusedFrom node l)
    (h12 : node.opcode = .fuse12 → l = [node]) (env : Env) (cycle : BitVec 64) (pc : Word) (s : Cpu)
    (hnt : (runThrough env l cycle pc s).isTrap = false) :
    impl env node {} false cycle pc s = runThrough env l cycle pc s := by
  cases h with
  | same => exact (runThrough_single ..).symm
  | seq hseq ir l hall hlen =>
    rw [hseq.impl_node env ir l hlen]
    rcases hseq.runThrough env (ir :: l) hall cycle pc s with ⟨s', hok, hrun⟩ | ⟨t, s', k, -, -, hrun⟩
    · rw [hok, hrun]
      rfl
    · rw [hrun] at hnt
      cases hnt
  | fuse2 ir next hop hnext hrd =>
    rw [runThrough_pair (impl_lui hop), impl_add hnext, cycle_two, pc_eight]
    have hsum : (s.setX ir.rd ir.imm).X ir.rd +
          (s.setX ir.rd ir.imm).X (if ir.rd = next.rs2 then next.rs1 else next.rs2) =
        (s.setX ir.rd ir.imm).X next.rs1 + (s.setX ir.rd ir.imm).X next.rs2 := by
      split
      · rename_i h2
        rw [← h2, BitVec.add_comm]
      · rename_i h2
        rw [← hrd.resolve_left h2]
    rw [← hsum]
    rfl
  | fuse6 ir next hop hnext =>
    rw [runThrough_pair (impl_addi hop), impl_ecall_isTrap hnext] at hnt
    cases hnt
  | fuse8 ir next hop hnext hrs1 hrd =>
    rw [runThrough_pair (impl_lui hop), impl_addi hnext, cycle_two, pc_eight, ← hrs1, ← hrd,
      Cpu.setX_self, Cpu.setX_setX]
    rfl
  | fuse9 ir next hop hnext hrs1 =>
    rw [runThrough_pair (impl_lui hop), impl_lw hnext, ← hrs1, Cpu.setX_self] at hnt ⊢
    by_cases hm : misaligned env 3 (ir.imm + next.imm) = true
    · rw [if_pos hm] at hnt
      cases hnt
    · rw [if_neg hm, cycle_two, pc_eight]
      simp only [impl, doFuse9, checkAligned, hm]
      rfl
  | fuse10 ir next hop hnext hrs1 =>
    rw [runThrough_pair (impl_lui hop), impl_sw hnext, ← hrs1, Cpu.setX_self] at hnt ⊢
    by_cases hm : misaligned env 3 (ir.imm + next.imm) = true
    · rw [if_pos hm] at hnt
      cases hnt
    · rw [if_neg hm, cycle_two, pc_eight]
      simp only [impl, doFuse10, checkAligned, hm]
      rfl
  | fuse11 ir next hop hnext hrs1 hrd hne =>
    by_cases hm : misaligned env 3 (s.X ir.rs1 + ir.imm) = true
    · simp only [runThrough, impl_lw hop, hm, if_true, Ctl.andThen_trap] at hnt
      cases hnt
    · have hlw : impl env ir {} false cycle pc s = _ := impl_lw hop
      rw [if_neg hm] at hlw
      rw [runThrough_pair hlw, impl_addi hnext, cycle_two, pc_eight, ← hrd, ← hrs1]
      simp only [impl, doFuse11, checkAligned, hm]
      rfl
  | fuse12 ir next =>
    have := h12 rfl
    simp at this

/-! ## The groups of a block -/

/-- `match_pattern` with, for every node of the result, the nodes it stands for. -/
def matchGroups (alloc : Word → Bool) : List Insn → List (Insn × List Insn)
  | [] => []
  | [ir] => [(ir, [ir])]
  | ir :: next :: rest =>
    let r := matchAt alloc ir next rest
    (r.1, ir :: (next :: rest).take r.2) :: matchGroups alloc ((next :: rest).drop r.2)
termination_by irs => irs.length
decreasing_by
  simp only [List.length_drop, List.length_cons]
  omega

theorem matchGroups_fst (alloc : Word → Bool) (irs : List Insn) :
    (matchGroups alloc irs).map Prod.fst = matchPattern alloc irs := by
  induction irs using matchGroups.induct alloc with
  | case1 => simp [matchGroups, matchPattern]
  | case2 ir => simp [matchGroups, matchPattern]
  | case3 ir next rest r ih =>
    rw [matchGroups, matchPattern, List.map_cons]
    exact congrArg _ ih

theorem matchGroups_snd (alloc : Word → Bool) (irs : List Insn) :
    (matchGroups alloc irs).flatMap Prod.snd = irs := by
  induction irs using matchGroups.induct alloc with
  | case1 => simp [matchGroups]
  | case2 ir => simp [matchGroups]
  | case3 ir next rest r ih =>
    rw [matchGroups, List.flatMap_cons, ih, List.cons_append, List.take_append_drop]

theorem matchGroups_fusedFrom (alloc : Word → Bool) (irs : List Insn) :
    ∀ g ∈ matchGroups alloc irs, FusedFrom g.1 g.2 := by
  induction irs using matchGroups.induct alloc with
  | case1 => simp [matchGroups]
  | case2 ir =>
    simp only [matchGroups, List.mem_singleton, forall_eq]
    exact .same ir
  | case3 ir next rest r ih =>
    rw [matchGroups]
    intro g hg
    rcases List.mem_cons.mp hg with rfl | hg
    · exact matchAt_fusedFrom ..
    · exact ih g hg

/-! ## Blocks -/

/-- An IR list before `match_pattern`: nothing is fused yet, and a branch is the last node. -/
structure Unfused (irs : List Insn) : Prop where
  not_fuse : ∀ ir ∈ irs, ir.opcode.isFuse = false
  branch_last : ∀ pre ir suf, irs = pre ++ ir :: suf → ir.opcode.canBranch = true → suf = []

theorem unfused_cons {ir : Insn} {irs : List Insn} :
    Unfused (ir :: irs) ↔
      ir.opcode.isFuse = false ∧ (ir.opcode.canBranch = true → irs = []) ∧ Unfused irs := by
  constructor
  · intro h
    refine ⟨h.not_fuse ir (by simp), h.branch_last [] ir irs rfl, ⟨fun x hx => ?_, ?_⟩⟩
    · exact h.not_fuse x (by simp [hx])
    · intro pre x suf heq
      exact h.branch_last (ir :: pre) x suf (by rw [heq, List.cons_append])
  · rintro ⟨hf, hb, h⟩
    refine ⟨?_, ?_⟩
    · simp only [List.mem_cons, forall_eq_or_imp]
      exact ⟨hf, h.not_fuse⟩
    · intro pre x suf heq hx
      cases pre with
      | nil =>
        obtain ⟨rfl, rfl⟩ := List.cons_eq_cons.mp heq
        exact hb hx
      | cons a pre => exact h.branch_last pre x suf (List.cons_eq_cons.mp heq).2 hx

theorem Unfused.of_append {l l' : List Insn} (h : Unfused (l ++ l')) : Unfused l' := by
  induction l with
  | nil => exact h
  | cons ir l ih => exact ih (unfused_cons.mp h).2.2

theorem IrBlock.unfused {extC : Bool} {pc : Word} {irs : List Insn} (h : IrBlock extC pc irs) :
    Unfused irs := by
  induction h with
  | nil => exact ⟨by simp, by simp⟩
  | cons hdec hend hrest ih =>
    exact unfused_cons.mpr ⟨(rvDecode_wellFormed hdec).not_fuse, hend, ih⟩

/-- A rewrite of the constant optimiser neither makes nor removes a branch. -/
theorem constopt_opcode (ir : Insn) (info : ConstoptInfo) :
    (constopt ir info).1.opcode.canBranch = ir.opcode.canBranch ∧
      (ir.opcode.isFuse = false → (constopt ir info).1.opcode.isFuse = false) := by
  by_cases hnop : ir.opcode = .nop
  · simp [constopt, hnop, constoptRule, Fold.run]
  by_cases hscw : ir.opcode = .scw
  · simp [constopt, hscw, constoptRule, Fold.run]
  by_cases hcjalr : ir.opcode = .cjalr
  · simp [constopt, hcjalr, constoptRule, Fold.run]
  have hrule := ruleFor ir.opcode hnop hscw hcjalr
  unfold constopt
  generalize constoptRule ir.opcode = f at hrule ⊢
  generalize rvop ir.opcode = c at hrule
  cases hrule with
  | keep | known | bitManip | load | csr | lrw | amo | fpuX | jal | jalr | cjal => exact ⟨rfl, id⟩
  | auipc hnew => exact ⟨hnew.noBranch.symm, fun _ => rfl⟩
  | fold1 hnew | fold2 hnew | inPlace hnew =>
    simp only [Fold.run]
    split
    · exact ⟨hnew.noBranch_new.trans hnew.noBranch.symm, fun _ => hnew.not_fuse⟩
    · exact ⟨rfl, id⟩
  | branch hop hbr | cbranch hbr =>
    simp only [Fold.run]
    split
    · exact ⟨hbr.symm, fun _ => rfl⟩
    · exact ⟨rfl, id⟩

theorem Unfused.constoptRun {irs : List Insn} (h : Unfused irs) (info : ConstoptInfo) :
    Unfused (Rv32emu.constoptRun irs info).1 := by
  induction irs generalizing info with
  | nil => exact h
  | cons ir irs ih =>
    obtain ⟨hf, hb, h'⟩ := unfused_cons.mp h
    have hop := constopt_opcode ir info
    refine unfused_cons.mpr ⟨hop.2 hf, fun hbr => ?_, ih h' _⟩
    rw [hop.1] at hbr
    rw [hb hbr]
    rfl

/-- The lists `match_pattern` is called with. -/
theorem IrBlock.optimizeConstant_unfused {extC : Bool} {pc : Word} {irs : List Insn}
    (h : IrBlock extC pc irs) : Unfused (optimizeConstant irs) :=
  h.unfused.constoptRun .init

/-! ## The fused loop counter -/

/-- `bne rd, x0` compares the counter with `x0`, `do_fuse12` with 0: they agree before the `addi` if
`x0` holds 0, or if the counter becomes neither. -/
def LoopOk (addi : Insn) (s : Cpu) : Prop :=
  s.X regZero = 0 ∨ (s.X addi.rs1 + addi.imm ≠ s.X regZero ∧ s.X addi.rs1 + addi.imm ≠ 0)

theorem loopOk_iff (addi : Insn) (s : Cpu) :
    (s.X addi.rs1 + addi.imm != 0) = (s.X addi.rs1 + addi.imm != s.X regZero) ↔ LoopOk addi s := by
  unfold LoopOk
  generalize s.X addi.rs1 + addi.imm = w
  generalize s.X regZero = v
  generalize (0 : Word) = z
  by_cases hw : w = z
  · by_cases hv : w = v
    · simp [← hw, ← hv]
    · simp [← hw, hv, Ne.symm hv]
  · by_cases hv : w = v
    · simp [← hv, hw]
    · simp [hw, hv, bne_iff_ne.mpr hw, bne_iff_ne.mpr hv]

/-- The end of a loop iteration, with the counter already updated. -/
def loopEnd (taken : Bool) (offset : Word) (cycle : BitVec 64) (pc : Word) (s : Cpu) : Ctl :=
  .ret true ({ s with isBranchTaken := taken }.save (cycle + 2)
    (if taken then pc + (4 + offset) else pc + 8))

section Loop

variable {env : Env} {ir next : Insn} {cycle : BitVec 64} {pc : Word} {s : Cpu}

theorem impl_fuse12 (hop : ir.opcode = .fuse12) (noNext : Bool) :
    impl env ir {} noNext cycle pc s =
      loopEnd (s.X ir.rs1 + ir.imm != 0) ir.imm2 cycle pc (s.setX ir.rd (s.X ir.rs1 + ir.imm)) := by
  simp only [impl, hop, doFuse12, Cpu.setX_self, loopEnd]
  by_cases hw : s.X ir.rs1 + ir.imm = 0
  · rw [hw]
    rfl
  · rw [if_pos hw, bne_iff_ne.mpr hw]
    rfl

theorem runIr_addi_bne (hop : ir.opcode = .addi) (hnext : next.opcode = .bne)
    (hrd : ir.rd ≠ regZero) (hrs1 : ir.rd = next.rs1) (hrs2 : next.rs2 = regZero)
    (hnt : (runIr env [ir, next] cycle pc s).isTrap = false) :
    runIr env [ir, next] cycle pc s =
      loopEnd (s.X ir.rs1 + ir.imm != s.X regZero) next.imm cycle pc
        (s.setX ir.rd (s.X ir.rs1 + ir.imm)) := by
  have hx0 : (s.setX ir.rd (s.X ir.rs1 + ir.imm)).X next.rs2 = s.X regZero := by
    rw [hrs2, Cpu.setX_of_ne _ hrd.symm]
  have hcnt : (s.setX ir.rd (s.X ir.rs1 + ir.imm)).X next.rs1 = s.X ir.rs1 + ir.imm := by
    rw [← hrs1, Cpu.setX_self]
  rw [runIr_cons, impl_addi hop, Ctl.andThen_next, runIr_cons, impl_bne hnext, hx0, hcnt] at hnt ⊢
  by_cases hw : s.X ir.rs1 + ir.imm = s.X regZero
  · rw [if_pos hw, Ctl.andThen_next, cycle_two, pc_eight, loopEnd, bne_eq_false_iff_eq.mpr hw]
    rfl
  · rw [if_neg hw] at hnt ⊢
    by_cases hm : insnMisaligned env (pc + 4 + next.imm) = true
    · rw [if_pos hm] at hnt
      cases hnt
    · rw [if_neg hm, cycle_two, loopEnd, bne_iff_ne.mpr hw, if_pos rfl, BitVec.add_assoc]
      rfl

end Loop

/-! ## Blocks and their fused forms -/

/-- Two runs end alike: with the same trap or none, the same next `PC`, cycle count, registers,
memory and `is_branch_taken`. -/
structure EndsAlike (a b : Ctl) : Prop where
  result : a.result = b.result
  isBranchTaken : a.cpu.isBranchTaken = b.cpu.isBranchTaken

theorem EndsAlike.refl (a : Ctl) : EndsAlike a a := ⟨rfl, rfl⟩

theorem loopEnd_endsAlike_iff {taken taken' : Bool} {offset : Word} {cycle : BitVec 64} {pc : Word}
    {s : Cpu} :
    EndsAlike (loopEnd taken offset cycle pc s) (loopEnd taken' offset cycle pc s) ↔ taken = taken' := by
  constructor
  · intro h
    exact h.isBranchTaken
  · rintro rfl
    exact .refl _

theorem FusedFrom.ne_nil {node : Insn} {l : List Insn} (h : FusedFrom node l) : l ≠ [] := by
  cases h <;> simp

/-- A group that `fuse12` stands for ends its block. -/
theorem FusedFrom.of_fuse12 {node : Insn} {l rest : List Insn} (h : FusedFrom node l)
    (hun : Unfused (l ++ rest)) (hop : node.opcode = .fuse12) :
    rest = [] ∧ ∃ ir next, l = [ir, next] ∧ node = { ir with imm2 := next.imm, opcode := .fuse12 } ∧
      ir.opcode = .addi ∧ next.opcode = .bne ∧ ir.rd ≠ regZero ∧ ir.rd = next.rs1 ∧
      next.rs2 = regZero := by
  cases h with
  | same =>
    have := hun.not_fuse node (by simp)
    rw [hop] at this
    cases this
  | seq hseq => cases hseq <;> cases hop
  | fuse12 ir next haddi hnext hrd hrs1 hrs2 =>
    exact ⟨hun.branch_last [ir] next rest rfl (by rw [hnext]; rfl), ir, next, rfl, rfl, haddi, hnext,
      hrd, hrs1, hrs2⟩
  | fuse2 | fuse6 | fuse8 | fuse9 | fuse10 | fuse11 => cases hop

/-- A run that gets as far as a `fuse12` group, the last one if there is any, finds the loop counter
in order. -/
def LoopsOk (env : Env) (gs : List (Insn × List Insn)) (cycle : BitVec 64) (pc : Word) (s : Cpu) :
    Prop :=
  ∀ pre g, gs = pre ++ [g] → g.1.opcode = .fuse12 → ∀ cycle' pc' s',
    runThrough env (pre.flatMap Prod.snd) cycle pc s = .next cycle' pc' s' →
      ∀ addi ∈ g.2.head?, LoopOk addi s'

/-- Over the groups of an unfused block. Only a group that `fuse12` stands for can end differently,
and it is the last one. -/
theorem groups_endsAlike_iff (env : Env) (gs : List (Insn × List Insn))
    (hgs : ∀ g ∈ gs, FusedFrom g.1 g.2) (hun : Unfused (gs.flatMap Prod.snd)) (cycle : BitVec 64)
    (pc : Word) (s : Cpu) (hnt : (runIr env (gs.flatMap Prod.snd) cycle pc s).isTrap = false) :
    EndsAlike (runIr env (gs.map Prod.fst) cycle pc s) (runIr env (gs.flatMap Prod.snd) cycle pc s) ↔
      LoopsOk env gs cycle pc s := by
  induction gs generalizing cycle pc s with
  | nil => exact iff_of_true (.refl _) (by simp [LoopsOk])
  | cons g gs ih =>
    obtain ⟨node, l⟩ := g
    have hg : FusedFrom node l := hgs (node, l) (by simp)
    have hgs' : ∀ g ∈ gs, FusedFrom g.1 g.2 := fun g h => hgs g (by simp [h])
    unfold LoopsOk
    rw [forall_last_cons]
    simp only [List.flatMap_cons, List.map_cons] at hun hnt ⊢
    by_cases h12 : node.opcode = .fuse12
    · obtain ⟨hrest, ir, next, rfl, hnode, hop, hnext, hrd, hrs1, hrs2⟩ := hg.of_fuse12 hun h12
      have hnil : gs = [] := by
        cases gs with
        | nil => rfl
        | cons g gs => exact absurd (List.append_eq_nil_iff.mp hrest).1 (hgs' g (by simp)).ne_nil
      subst hnil
      have hfused : runIr env [node] cycle pc s =
          loopEnd (s.X ir.rs1 + ir.imm != 0) next.imm cycle pc
            (s.setX ir.rd (s.X ir.rs1 + ir.imm)) := by
        rw [runIr_cons, impl_fuse12 h12, hnode]
        rfl
      simp only [List.flatMap_nil, List.append_nil, List.map_nil] at hnt ⊢
      rw [hfused, runIr_addi_bne hop hnext hrd hrs1 hrs2 hnt, loopEnd_endsAlike_iff, loopOk_iff]
      simp [runThrough, h12]
    · have hrun := hg.run (fun h => absurd h h12) env cycle pc s
        (Ctl.isTrap_of_andThen (by rw [← runIr_append]; exact hnt))
      rw [runIr_append] at hnt ⊢
      rw [runIr_cons, hrun]
      simp only [h12, false_implies, implies_true, true_and, runThrough_append]
      cases hth : runThrough env l cycle pc s with
      | next cycle' pc' s' =>
        rw [hth] at hnt
        exact ih hgs' hun.of_append cycle' pc' s' hnt
      | enter | lookup | ret => exact iff_of_true (.refl _) (by simp [Ctl.andThen])
      | trap t s' =>
        rw [hth] at hnt
        cases hnt

/-- `match_pattern` has not changed how a block ends. -/
def FusionPreserves (env : Env) (alloc : Word → Bool) (irs : List Insn) (cycle : BitVec 64) (pc : Word)
    (s : Cpu) : Prop :=
  EndsAlike (runIr env (matchPattern alloc irs) cycle pc s) (runIr env irs cycle pc s)

/-- **Fusion preserves meaning exactly where the loop counters are in order.** -/
theorem fusionPreserves_iff (env : Env) (alloc : Word → Bool) {irs : List Insn} (hun : Unfused irs)
    (cycle : BitVec 64) (pc : Word) (s : Cpu) (hnt : (runIr env irs cycle pc s).isTrap = false) :
    FusionPreserves env alloc irs cycle pc s ↔ LoopsOk env (matchGroups alloc irs) cycle pc s := by
  have h := groups_endsAlike_iff env (matchGroups alloc irs) (matchGroups_fusedFrom alloc irs)
  rw [matchGroups_snd, matchGroups_fst] at h
  exact h hun cycle pc s hnt

/-- `lw x0, 0(a0); addi a1, a1, -1; bne a1, x0, -8`. -/
def countdown : List Insn :=
  [{ opcode := .lw, rs1 := 10 }, { opcode := .addi, rd := 11, rs1 := 11, imm := -1, pc := 4 },
    { opcode := .bne, rs1 := 11, imm := -8, pc := 8 }]

theorem countdown_irBlock : IrBlock true 0 countdown :=
  .cons (show rvDecode true 0x00052003 = .ok _ from by rfl) (fun h => by cases h)
    (.cons (show rvDecode true 0xfff58593 = .ok _ from by rfl) (fun h => by cases h)
      (.cons (show rvDecode true 0xfe059ce3 = .ok _ from by rfl) (fun _ => rfl) (.nil _)))

theorem matchGroups_countdown :
    matchGroups (fun _ => true) countdown =
      [({ opcode := .lw, rs1 := 10 }, [{ opcode := .lw, rs1 := 10 }]),
        ({ opcode := .fuse12, rd := 11, rs1 := 11, imm := -1, imm2 := -8, pc := 4 },
          [{ opcode := .addi, rd := 11, rs1 := 11, imm := -1, pc := 4 },
            { opcode := .bne, rs1 := 11, imm := -8, pc := 8 }])] := by
  simp [countdown, matchGroups, matchAt, tryFuseSequence, countConsecutive]

/-- With a non-zero word at `a0` the load leaves `x0` non-zero, and a counter that reaches 0 ends the
loop only when it is fused. -/
theorem not_fusionPreserves_countdown :
    Unfused countdown ∧
      (runIr (Env.bare false) countdown 0 0 ((Cpu.zero fun _ => 1).setX 11 1)).isTrap = false ∧
      ¬ FusionPreserves (Env.bare false) (fun _ => true) countdown 0 0
        ((Cpu.zero fun _ => 1).setX 11 1) := by
  refine ⟨countdown_irBlock.unfused, rfl, fun h => ?_⟩
  have htaken := h.isBranchTaken
  rw [← matchGroups_fst, matchGroups_countdown] at htaken
  exact absurd htaken (by decide)

/-- With a zero word at `a0` the loop ends in both forms. -/
theorem fusionPreserves_countdown :
    FusionPreserves (Env.bare false) (fun _ => true) countdown 0 0
      ((Cpu.zero fun _ => 0).setX 11 1) := by
  refine (fusionPreserves_iff (Env.bare false) (fun _ => true) countdown_irBlock.unfused 0 0
    ((Cpu.zero fun _ => 0).setX 11 1) rfl).mpr ?_
  rw [matchGroups_countdown]
  unfold LoopsOk
  rw [forall_last_cons, forall_last_cons]
  refine ⟨?_, ?_, ?_⟩
  · intro h
    cases h
  · intro _ _ cycle' pc' s' hrun addi _
    cases hrun
    exact Or.inl rfl
  · intro pre g h
    simp at h

end Rv32emu
