import Rv32emu.Chain
import Rv32emu.IrList

/-!
# Macro-operation fusion on the linked list

`match_pattern` over the nodes of a block in memory, in a user-mode build other than RV32E, where `Fusion`
has the list of its instructions.

* `matchPatternIr` and the functions it calls, as in the source; `none` where a missing node is read and where a loop
  makes more turns than it is given;
* `Replaces`, `matchIr_replaces` : one turn does what `matchAt` says;
* `Stands` : a node with the instructions it stands for; `matchAt_stands`;
* `scanIr_fused`, `fusedBlock_consistent` : the pass ends, and leaves a list whose counters agree;
* `matchPatternIr_refines` : it leaves the list of `matchPattern`.
-/

namespace Rv32emu

open ListHeap

/-! ## The functions -/

def removeNextNthIr (s : IrState) (ir : Ref) (n : Nat) : Option IrState := do
  let h ← unlinkNext ir n s.heap
  let c ← h ir
  return ⟨h, { s.block with
    irTail := if c.next = none then some ir else s.block.irTail, nInsn := s.block.nInsn - BitVec.ofNat 32 n }⟩

/-- The loop of `count_consecutive_insn` and `count_consecutive_shift`: what it adds to `count`. -/
def countNext (p : Opcode → Bool) (h : IrHeap) : Nat → Option Ref → Option Nat
  | 0, _ => none
  | _ + 1, none => some 0
  | n + 1, some next => do
    let c ← h next
    if p c.val.insn.opcode then
      if c.next = none then return 1
      let count ← countNext p h n c.next
      return count + 1
    else return 0

/-- `count_consecutive_insn`, `count_consecutive_shift`. -/
def countConsecutiveIr (p : Opcode → Bool) (s : IrState) (ir : Ref) : Option Nat := do
  let c ← s.heap ir
  let count ← countNext p s.heap (s.block.nInsn.toNat + 1) c.next
  return 1 + count

/-- The `memcpy` loop of `try_fuse_sequence`: `n` nodes from `next` on. -/
def copyNext (h : IrHeap) : Nat → Option Ref → Option (List OpcodeFuse)
  | 0, _ => some []
  | n + 1, next => do
    let a ← next
    let c ← h a
    let entries ← copyNext h n c.next
    return c.val.insn.toFuse :: entries

/-- Assignments to fields of `*ir`. -/
def setNode (s : IrState) (ir : Ref) (f : IrNode → IrNode) : Option IrState :=
  (modify s.heap ir fun c => { c with val := f c.val }).map fun h => { s with heap := h }

/-- The node of a run, with `fuse[0]` copied before the opcode is changed. -/
def IrNode.fuseHead (op : Opcode) (count : Nat) (v : IrNode) : IrNode :=
  { v with insn := { v.insn with fuse := [v.insn.toFuse], opcode := op, imm2 := BitVec.ofNat 32 count } }

/-- The entries behind `fuse[0]`. -/
def IrNode.fuseRest (entries : List OpcodeFuse) (v : IrNode) : IrNode :=
  { v with insn := { v.insn with fuse := v.insn.fuse ++ entries } }

/-- `next_ir`, if there is one. -/
def peekNext (h : IrHeap) : Option Ref → Option (Option IrNode)
  | none => some none
  | some next => (h next).map fun c => some c.val

section Pass

variable {σ : Type} (alloc : σ → Bool × σ)

/-- `try_fuse_sequence`. `alloc` is `mpool_alloc` for `fuse_mp`: whether it returns a slot. -/
def tryFuseIr (s : IrState) (m : σ) (ir : Ref) (count : Nat) (op : Opcode) : Option (IrState × σ) :=
  if count ≤ 1 then some (s, m)
  else if fuseMaxEntries < count then some (s, m)
  else if !(alloc m).1 then some (s, (alloc m).2)
  else do
    let s ← setNode s ir (IrNode.fuseHead op count)
    let c ← s.heap ir
    let entries ← copyNext s.heap (count - 1) c.next
    let s ← setNode s ir (IrNode.fuseRest entries)
    let s ← removeNextNthIr s ir (count - 1)
    return (s, (alloc m).2)

def fuseRunIr (p : Opcode → Bool) (op : Opcode) (s : IrState) (m : σ) (ir : Ref) : Option (IrState × σ) := do
  let count ← countConsecutiveIr p s ir
  tryFuseIr alloc s m ir count op

/-- The node is rewritten, and its successor goes. -/
def fuseNextIr (f : IrNode → IrNode) (s : IrState) (m : σ) (ir : Ref) : Option (IrState × σ) := do
  let s ← setNode s ir f
  let s ← removeNextNthIr s ir 1
  return (s, m)

/-- The `switch` of `match_pattern`. -/
def matchIr (s : IrState) (m : σ) (p : Ref) : Option (IrState × σ) := do
  let c ← s.heap p
  let ir := c.val.insn
  match ir.opcode with
  | .lui =>
    match ← peekNext s.heap c.next with
    | none => return (s, m)
    | some ⟨next, _⟩ =>
      match next.opcode with
      | .add =>
        if ir.rd = next.rs2 ∨ ir.rd = next.rs1 then
          fuseNextIr (fun v => { v with
            insn := { v.insn with opcode := .fuse2, rs2 := next.rd,
                                  rs1 := if ir.rd = next.rs2 then next.rs1 else next.rs2 } }) s m p
        else return (s, m)
      | .addi =>
        if ir.rd ≠ regZero ∧ ir.rd = next.rs1 ∧ ir.rd = next.rd then
          fuseNextIr (fun v => { v with insn := { v.insn with imm2 := next.imm, opcode := .fuse8 } }) s m p
        else return (s, m)
      | .lw =>
        if ir.rd ≠ regZero ∧ ir.rd = next.rs1 then
          fuseNextIr (fun v => { v with
            insn := { v.insn with imm2 := next.imm, rs2 := next.rd, opcode := .fuse9 } }) s m p
        else return (s, m)
      | .sw =>
        if ir.rd ≠ regZero ∧ ir.rd = next.rs1 ∧ ir.rd ≠ next.rs2 then
          fuseNextIr (fun v => { v with
            insn := { v.insn with imm2 := next.imm, rs1 := next.rs2, opcode := .fuse10 } }) s m p
        else return (s, m)
      | .lui => fuseRunIr alloc (· == .lui) .fuse1 s m p
      | _ => return (s, m)
  | .sw => fuseRunIr alloc (· == .sw) .fuse3 s m p
  | .lw =>
    match ← peekNext s.heap c.next with
    | none => fuseRunIr alloc (· == .lw) .fuse4 s m p
    | some ⟨next, _⟩ =>
      if next.opcode = .addi ∧ ir.rs1 = next.rs1 ∧ next.rs1 = next.rd ∧ ir.rd ≠ ir.rs1 then
        fuseNextIr (fun v => { v with insn := { v.insn with imm2 := next.imm, opcode := .fuse11 } }) s m p
      else fuseRunIr alloc (· == .lw) .fuse4 s m p
  | .slli | .srli | .srai => fuseRunIr alloc isShiftImm .fuse5 s m p
  | .addi =>
    match ← peekNext s.heap c.next with
    | none => fuseRunIr alloc (· == .addi) .fuse7 s m p
    | some ⟨next, links⟩ =>
      if ir.rd = regA7 ∧ ir.rs1 = regZero ∧ next.opcode = .ecall then
        fuseNextIr (fun v => { v with insn := { v.insn with opcode := .fuse6 } }) s m p
      else if next.opcode = .bne ∧ ir.rd ≠ regZero ∧ ir.rd = next.rs1 ∧ next.rs2 = regZero then
        fuseNextIr (fun v => { v with insn := { v.insn with imm2 := next.imm, opcode := .fuse12 }, links }) s m p
      else fuseRunIr alloc (· == .addi) .fuse7 s m p
  | _ => return (s, m)

/-- The loop of `match_pattern`. -/
def scanIr : Nat → Word → Option Ref → IrState → σ → Option (IrState × σ)
  | 0, _, _, _, _ => none
  | n + 1, i, ir, s, m =>
    if i < s.block.nInsn - 1 then do
      let p ← ir
      let (s, m) ← matchIr alloc s m p
      let c ← s.heap p
      scanIr n (i + 1) c.next s m
    else some (s, m)

def matchPatternIr (s : IrState) (m : σ) : Option (IrState × σ) :=
  scanIr alloc (s.block.nInsn.toNat + 1) 0 s.block.irHead s m

end Pass

/-! ## The steps on a list -/

section Steps

variable {i : Nat} {s : IrState} {a b : Ref} {v w : IrNode} {l : List (Ref × IrNode)}

theorem setNode_eq {c : Node IrNode} (hc : s.heap a = some c) (f : IrNode → IrNode) :
    setNode s a f = some { s with heap := Function.update s.heap a (some { c with val := f c.val }) } := by
  rw [setNode, modify_eq hc, Option.map_some]

theorem ListedFrom.setNode (h : ListedFrom i s ((a, v) :: l)) (w : IrNode) :
    ListedFrom i { s with heap := Function.update s.heap a (some ⟨w, first none l⟩) } ((a, w) :: l) where
  laid := h.laid.set_head h.nodup w
  nodup := h.nodup
  n_insn := h.n_insn
  ir_tail hne := by
    refine (h.ir_tail (List.cons_ne_nil _ l)).trans ?_
    cases l with
    | nil => rfl
    | cons x l => rw [lastRef_cons (List.cons_ne_nil x l), lastRef_cons (List.cons_ne_nil x l)]

theorem ListedFrom.remove (h : ListedFrom i s ((a, v) :: l)) {n : Nat} (hn : n ≤ l.length) :
    ∃ s', removeNextNthIr s a n = some s' ∧ ListedFrom i s' ((a, v) :: l.drop n) ∧ IrKept s s' ((a, v) :: l) := by
  obtain ⟨h', hrun, hlaid, hkeep⟩ := h.laid.unlinkNext h.nodup hn
  have hsub : List.Sublist (addrs ((a, v) :: l.drop n)) (addrs ((a, v) :: l)) :=
    (List.Sublist.cons_cons (a, v) (List.drop_sublist n l)).map Prod.fst
  refine ⟨⟨h', { s.block with
    irTail := if first none (l.drop n) = none then some a else s.block.irTail
    nInsn := s.block.nInsn - BitVec.ofNat 32 n }⟩,
    ?_, ⟨hlaid, h.nodup.sublist hsub, ?_, fun _ => ?_⟩, ⟨hkeep, rfl, rfl⟩⟩
  · simp only [removeNextNthIr, hrun, hlaid.1, Option.bind_eq_bind, Option.bind_some, Option.pure_def]
  · have hlt := s.block.nInsn.isLt
    have hlen := h.n_insn
    rw [List.length_cons] at hlen
    change (s.block.nInsn - BitVec.ofNat 32 n).toNat = _
    rw [List.length_cons, List.length_drop, BitVec.toNat_sub, BitVec.toNat_ofNat,
      Nat.mod_eq_of_lt (by omega : n < 2 ^ 32)]
    omega
  · change (if first none (l.drop n) = none then some a else s.block.irTail) = _
    by_cases hnil : l.drop n = []
    · rw [hnil]
      rfl
    · have hlt : ¬ l.length ≤ n := fun hle => hnil (List.drop_eq_nil_iff.mpr hle)
      have hne : l ≠ [] := fun heq => hnil (by rw [heq, List.drop_nil])
      have hfirst : first none (l.drop n) ≠ none := by
        obtain ⟨x, l', hx⟩ := List.exists_cons_of_ne_nil hnil
        rw [hx]
        exact Option.some_ne_none _
      rw [if_neg hfirst, h.ir_tail (List.cons_ne_nil _ l), lastRef_cons hne, lastRef_cons hnil, lastRef, lastRef,
        List.getLast?_drop, if_neg hlt]

theorem countNext_eq (p : Opcode → Bool) {h : IrHeap} (hl : Laid h none l) {n : Nat} (hn : l.length < n) :
    countNext p h n (first none l) = some ((insns l).takeWhile fun ir => p ir.opcode).length := by
  induction l generalizing n with
  | nil =>
    obtain ⟨n, rfl⟩ := Nat.exists_eq_succ_of_ne_zero (Nat.ne_of_gt hn)
    rfl
  | cons x l ih =>
    obtain ⟨a, v⟩ := x
    obtain ⟨n, rfl⟩ := Nat.exists_eq_succ_of_ne_zero (Nat.ne_of_gt (Nat.zero_lt_of_lt hn))
    have hrest := ih hl.2 (Nat.lt_of_succ_lt_succ hn)
    rw [first_cons, countNext, hl.1, Option.bind_eq_bind, Option.bind_some, insns, List.map_cons, List.takeWhile_cons]
    by_cases hp : p v.insn.opcode = true
    · rw [if_pos hp, if_pos hp, List.length_cons]
      cases l with
      | nil => rfl
      | cons y l =>
        have hne : first none (y :: l) ≠ none := Option.some_ne_none _
        change (if first none (y :: l) = none then some 1
          else (countNext p h n (first none (y :: l))).bind fun count => some (count + 1)) = _
        rw [if_neg hne, hrest, Option.bind_some]
    · rw [if_neg hp, if_neg hp]
      rfl

theorem copyNext_eq {h : IrHeap} (hl : Laid h none l) {n : Nat} (hn : n ≤ l.length) :
    copyNext h n (first none l) = some (((insns l).take n).map Insn.toFuse) := by
  induction n generalizing l with
  | zero => rfl
  | succ n ih =>
    cases l with
    | nil => exact absurd hn (Nat.not_succ_le_zero n)
    | cons x l =>
      obtain ⟨a, v⟩ := x
      simp only [copyNext, first_cons, hl.1, ih hl.2 (Nat.le_of_succ_le_succ hn), Option.bind_eq_bind, Option.bind_some,
        Option.pure_def]
      rfl

end Steps

/-! ## One turn -/

theorem tryFuseSequence_removes (alloc : Word → Bool) (p : Opcode → Bool) (op : Opcode) (ir : Insn) (rest : List Insn) :
    tryFuseSequence alloc ir rest (countConsecutive p rest) op = (ir, 0) ∨
      0 < (tryFuseSequence alloc ir rest (countConsecutive p rest) op).2 ∧
        (tryFuseSequence alloc ir rest (countConsecutive p rest) op).2 ≤ rest.length := by
  have hle := (List.takeWhile_prefix (fun ir : Insn => p ir.opcode) (l := rest)).length_le
  unfold tryFuseSequence countConsecutive
  split_ifs with hone hmax halloc
  · exact .inl rfl
  · exact .inl rfl
  · refine .inr ⟨?_, ?_⟩
    · dsimp only
      omega
    · rw [Nat.add_sub_cancel_left]
      exact hle
  · exact .inl rfl

/-- A turn keeps the node, or takes away at least one of those behind it. -/
theorem matchAt_removes (alloc : Word → Bool) (ir next : Insn) (rest : List Insn) :
    matchAt alloc ir next rest = (ir, 0) ∨
      0 < (matchAt alloc ir next rest).2 ∧ (matchAt alloc ir next rest).2 ≤ (next :: rest).length := by
  have hone : ∀ node : Insn, (node, 1) = (ir, 0) ∨ 0 < (node, 1).2 ∧ (node, 1).2 ≤ (next :: rest).length :=
    fun _ => .inr ⟨Nat.one_pos, Nat.succ_pos rest.length⟩
  have hrun := fun p op => tryFuseSequence_removes alloc p op ir (next :: rest)
  unfold matchAt
  dsimp only
  cases ir.opcode
  case lui =>
    cases next.opcode
    case lui => exact hrun _ _
    case add =>
      by_cases hcond : ir.rd = next.rs2 ∨ ir.rd = next.rs1
      · rw [if_pos hcond]
        exact hone _
      · rw [if_neg hcond]
        exact .inl rfl
    case addi | lw | sw =>
      dsimp only
      split_ifs
      · exact hone _
      · exact .inl rfl
    all_goals exact .inl rfl
  case lw =>
    dsimp only
    split_ifs
    · exact hone _
    · exact hrun _ _
  case addi =>
    dsimp only
    split_ifs
    · exact hone _
    · exact hone _
    · exact hrun _ _
  case sw => exact hrun _ _
  case slli | srli | srai => exact hrun _ _
  all_goals exact .inl rfl

section Turn

variable {σ : Type} (alloc : σ → Bool × σ) {i : Nat} {s : IrState} {a b : Ref} {v w : IrNode}
  {l : List (Ref × IrNode)}

/-- The node of `r` is put in the place of `v`, and as many successors as `r` says are removed. -/
def Replaces (s : IrState) (ir : Ref) (r : Insn × Nat) (res : Option (IrState × σ)) : Prop :=
  ∃ m' v', v'.insn = r.1 ∧
    res = (if r.2 = 0 then some s
      else (setNode s ir fun _ => v').bind fun s => removeNextNthIr s ir r.2).map fun s => (s, m')

theorem replaces_self (m : σ) : Replaces s a (v.insn, 0) (some (s, m)) := ⟨m, v, rfl, rfl⟩

theorem replaces_next (h : ListedFrom i s ((a, v) :: l)) (m : σ) {f : IrNode → IrNode} {node : Insn}
    (hf : (f v).insn = node) : Replaces s a (node, 1) (fuseNextIr f s m a) := by
  refine ⟨m, f v, hf, ?_⟩
  rw [if_neg Nat.one_ne_zero, fuseNextIr, setNode_eq h.laid.1, setNode_eq h.laid.1]
  simp only [Option.bind_eq_bind, Option.bind_some, Option.pure_def]
  exact Option.map_eq_bind.symm

theorem replaces_run (h : ListedFrom i s ((a, v) :: l)) (m : σ) (p : Opcode → Bool) (op : Opcode) :
    Replaces s a (tryFuseSequence (fun _ => (alloc m).1) v.insn (insns l) (countConsecutive p (insns l)) op)
      (fuseRunIr alloc p op s m a) := by
  have hn : l.length < s.block.nInsn.toNat + 1 := by
    rw [h.n_insn, List.length_cons]
    omega
  have hcount : countConsecutiveIr p s a = some (countConsecutive p (insns l)) := by
    simp only [countConsecutiveIr, h.laid.1, countNext_eq p h.laid.2 hn, Option.bind_eq_bind, Option.bind_some]
    rfl
  have hle : countConsecutive p (insns l) - 1 ≤ l.length := by
    have hprefix := (List.takeWhile_prefix (fun ir : Insn => p ir.opcode) (l := insns l)).length_le
    rw [List.length_map] at hprefix
    unfold countConsecutive
    omega
  unfold fuseRunIr tryFuseIr tryFuseSequence
  rw [hcount, Option.bind_eq_bind, Option.bind_some]
  generalize countConsecutive p (insns l) = count at hle ⊢
  by_cases hone : count ≤ 1
  · rw [if_pos hone, if_pos hone]
    exact replaces_self m
  rw [if_neg hone, if_neg hone]
  by_cases hmax : fuseMaxEntries < count
  · rw [if_pos hmax, if_pos hmax]
    exact replaces_self m
  rw [if_neg hmax, if_neg hmax]
  cases halloc : (alloc m).1 with
  | false => exact replaces_self _
  | true =>
    have hpos : count - 1 ≠ 0 := by omega
    have h₁ := h.setNode (v.fuseHead op count)
    have hset₁ : setNode s a (IrNode.fuseHead op count) = some _ := setNode_eq h.laid.1 _
    have hcell₁ := h₁.laid.1
    have hcopy := copyNext_eq h₁.laid.2 hle
    have hset₂ := setNode_eq h₁.laid.1 (IrNode.fuseRest (((insns l).take (count - 1)).map Insn.toFuse))
    refine ⟨(alloc m).2, (v.fuseHead op count).fuseRest (((insns l).take (count - 1)).map Insn.toFuse), rfl, ?_⟩
    dsimp only at hcell₁ hcopy hset₂
    rw [Function.update_idem] at hset₂
    have hset : setNode s a (fun _ => (v.fuseHead op count).fuseRest (((insns l).take (count - 1)).map Insn.toFuse)) =
        some _ := setNode_eq h.laid.1 _
    simp only [Bool.not_true, Bool.false_eq_true, if_false, if_true, if_neg hpos, hset₁, hcell₁, hcopy, hset₂, hset,
      Option.bind_eq_bind, Option.bind_some, Option.pure_def]
    exact Option.map_eq_bind.symm

/-- **One turn does what the `switch` says of the two instructions and those behind them.** -/
theorem matchIr_replaces (h : ListedFrom i s ((a, v) :: (b, w) :: l)) (m : σ) :
    Replaces s a (matchAt (fun _ => (alloc m).1) v.insn w.insn (insns l)) (matchIr alloc s m a) := by
  have hpeek : peekNext s.heap (some b) = some (some w) := by
    rw [peekNext, h.laid.2.1]
    rfl
  have hrun := fun p op => replaces_run alloc h m p op
  unfold matchIr matchAt
  simp only [h.laid.1, first_cons, hpeek, Option.bind_eq_bind, Option.bind_some, Option.pure_def]
  cases hop : v.insn.opcode
  case lui =>
    cases hnext : w.insn.opcode
    case lui => exact hrun _ _
    case add =>
      by_cases hcond : v.insn.rd = w.insn.rs2 ∨ v.insn.rd = w.insn.rs1
      · rw [if_pos hcond, if_pos hcond]
        exact replaces_next h m rfl
      · rw [if_neg hcond, if_neg hcond]
        exact replaces_self m
    case addi | lw | sw =>
      dsimp only
      split_ifs with hcond
      · exact replaces_next h m rfl
      · exact replaces_self m
    all_goals exact replaces_self m
  case lw =>
    dsimp only
    split_ifs with hcond
    · exact replaces_next h m rfl
    · exact hrun _ _
  case addi =>
    dsimp only
    split_ifs with hecall hbne
    · exact replaces_next h m rfl
    · exact replaces_next h m rfl
    · exact hrun _ _
  case sw => exact hrun _ _
  case slli | srli | srai => exact hrun _ _
  all_goals exact replaces_self m

theorem matchIr_listed (h : ListedFrom i s ((a, v) :: (b, w) :: l)) (m : σ) :
    let r := matchAt (fun _ => (alloc m).1) v.insn w.insn (insns l)
    ∃ s' m' v', matchIr alloc s m a = some (s', m') ∧ v'.insn = r.1 ∧
      ListedFrom i s' ((a, v') :: ((b, w) :: l).drop r.2) ∧ IrKept s s' ((a, v) :: (b, w) :: l) := by
  obtain ⟨m', v', hv', hrun⟩ := matchIr_replaces alloc h m
  rcases matchAt_removes (fun _ => (alloc m).1) v.insn w.insn (insns l) with heq | ⟨hpos, hle⟩
  · rw [heq] at hrun ⊢
    exact ⟨s, m', v, hrun, rfl, h, fun _ _ => rfl, rfl, rfl⟩
  · have hlen : (matchAt (fun _ => (alloc m).1) v.insn w.insn (insns l)).2 ≤ ((b, w) :: l).length := by
      rw [List.length_cons, List.length_map] at hle
      rwa [List.length_cons]
    obtain ⟨s', hremove, hl, hkept⟩ := (h.setNode v').remove hlen
    refine ⟨s', m', v', ?_, hv', hl, fun x hx => ?_, hkept.ir_head, hkept.cycle_cost⟩
    · rw [hrun, if_neg hpos.ne', setNode_eq h.laid.1, Option.bind_some]
      exact congrArg (Option.map fun s => (s, m')) hremove
    · have hxa : x ≠ a := fun heq => hx (heq ▸ List.mem_cons_self)
      rw [hkept.heap x hx]
      exact Function.update_of_ne hxa _ _

end Turn

/-! ## What the nodes stand for -/

def Opcode.hasFuse : Opcode → Bool
  | .fuse1 | .fuse3 | .fuse4 | .fuse5 | .fuse7 => true
  | _ => false

/-- The number of instructions a node stands for. -/
def represented (ir : Insn) : Nat :=
  if ir.opcode.hasFuse then ir.imm2.toNat else if ir.opcode.isFuse then 2 else 1

/-- A node with the instructions in whose place it is. -/
structure Stands (node : Insn) (g : List Insn) : Prop where
  fusedFrom : FusedFrom node g
  represented : represented node = g.length
  fuse : node.opcode.hasFuse = true → node.fuse = g.map Insn.toFuse ∧ 2 ≤ node.fuse.length ∧
    node.fuse.length ≤ fuseMaxEntries

theorem stands_self {ir : Insn} (hir : ir.opcode.isFuse = false) : Stands ir [ir] := by
  have hhas : ir.opcode.hasFuse = false := by
    revert hir
    cases ir.opcode <;> first | exact fun _ => rfl | exact fun h => absurd h (by decide)
  refine ⟨.same ir, ?_, fun h => absurd h (by rw [hhas]; exact Bool.false_ne_true)⟩
  rw [represented, if_neg (by rw [hhas]; exact Bool.false_ne_true), if_neg (by rw [hir]; exact Bool.false_ne_true)]
  rfl

theorem FusedFrom.stands {node : Insn} {g : List Insn} (h : FusedFrom node g) (hg : 2 ≤ g.length) : Stands node g := by
  refine ⟨h, ?_, ?_⟩
  · cases h with
    | same ir => exact absurd hg (Nat.not_succ_le_self 1)
    | seq hseq ir l hall hlen =>
      have hn : (BitVec.ofNat 32 (l.length + 1)).toNat = l.length + 1 := by
        rw [BitVec.toNat_ofNat, Nat.mod_eq_of_lt]
        unfold fuseMaxEntries at hlen
        omega
      cases hseq <;> exact hn
    | fuse2 | fuse6 | fuse8 | fuse9 | fuse10 | fuse11 | fuse12 => rfl
  · intro hhas
    cases h with
    | same ir => exact absurd hg (Nat.not_succ_le_self 1)
    | seq hseq ir l hall hlen =>
      refine ⟨rfl, ?_, ?_⟩
      · rwa [List.length_map]
      · rw [List.length_map]
        exact hlen
    | fuse2 | fuse6 | fuse8 | fuse9 | fuse10 | fuse11 | fuse12 => exact absurd hhas Bool.false_ne_true

theorem matchAt_stands {ir : Insn} (hir : ir.opcode.isFuse = false) (alloc : Word → Bool) (next : Insn)
    (rest : List Insn) :
    Stands (matchAt alloc ir next rest).1 (ir :: (next :: rest).take (matchAt alloc ir next rest).2) := by
  rcases matchAt_removes alloc ir next rest with heq | ⟨hpos, hle⟩
  · rw [heq]
    exact stands_self hir
  · refine (matchAt_fusedFrom alloc ir next rest).stands ?_
    rw [List.length_cons, List.length_take]
    omega

/-! ## The pass on a list of instructions -/

/-- What `match_pattern` can leave of a list, whichever fuse arrays it gets. -/
inductive FusesTo : List Insn → List Insn → Prop
  | nil : FusesTo [] []
  | last (ir : Insn) : FusesTo [ir] [ir]
  | step (grant : Bool) (ir next : Insn) (rest : List Insn) {out : List Insn}
      (h : FusesTo out ((next :: rest).drop (matchAt (fun _ => grant) ir next rest).2)) :
      FusesTo ((matchAt (fun _ => grant) ir next rest).1 :: out) (ir :: next :: rest)

theorem FusesTo.stands {out irs : List Insn} (h : FusesTo out irs) (hun : ∀ ir ∈ irs, ir.opcode.isFuse = false) :
    ∃ gs, List.Forall₂ Stands out gs ∧ gs.flatten = irs := by
  induction h with
  | nil => exact ⟨[], .nil, rfl⟩
  | last ir => exact ⟨[[ir]], .cons (stands_self (hun ir List.mem_cons_self)) .nil, rfl⟩
  | step grant ir next rest h ih =>
    obtain ⟨gs, hgs, hflat⟩ := ih fun x hx => hun x (List.mem_cons_of_mem _ (List.mem_of_mem_drop hx))
    refine ⟨_ :: gs, .cons (matchAt_stands (hun ir List.mem_cons_self) _ next rest) hgs, ?_⟩
    rw [List.flatten_cons, hflat, List.cons_append, List.take_append_drop]

theorem represented_sum {out : List Insn} {gs : List (List Insn)} (h : List.Forall₂ Stands out gs) :
    (out.map represented).sum = gs.flatten.length := by
  induction h with
  | nil => rfl
  | cons hstands _ ih =>
    rw [List.map_cons, List.sum_cons, List.flatten_cons, List.length_append, hstands.represented, ih]

/-! ### The list of `matchPattern` -/

theorem matchAt_congr {alloc alloc' : Word → Bool} {ir : Insn} (h : alloc ir.pc = alloc' ir.pc) (next : Insn)
    (rest : List Insn) : matchAt alloc ir next rest = matchAt alloc' ir next rest := by
  have hrun : ∀ l count op, tryFuseSequence alloc ir l count op = tryFuseSequence alloc' ir l count op := by
    intro l count op
    unfold tryFuseSequence
    rw [h]
  unfold matchAt
  simp only [hrun]

theorem matchPattern_congr {alloc alloc' : Word → Bool} {irs : List Insn} (h : ∀ ir ∈ irs, alloc ir.pc = alloc' ir.pc) :
    matchPattern alloc irs = matchPattern alloc' irs := by
  induction irs using matchPattern.induct alloc with
  | case1 => rw [matchPattern, matchPattern]
  | case2 ir => rw [matchPattern, matchPattern]
  | case3 ir next rest r ih =>
    have hrest := ih fun x hx => h x (List.mem_cons_of_mem _ (List.mem_of_mem_drop hx))
    have heq : matchAt alloc' ir next rest = r := (matchAt_congr (h ir List.mem_cons_self) next rest).symm
    rw [matchPattern, matchPattern, heq]
    exact congrArg _ hrest

/-- Each node asks for a fuse array at most once, so that the answers can be told apart by the addresses. -/
theorem FusesTo.eq_matchPattern {out irs : List Insn} (h : FusesTo out irs) (hpc : (irs.map Insn.pc).Nodup) :
    ∃ alloc, out = matchPattern alloc irs := by
  induction h with
  | nil => exact ⟨fun _ => true, by rw [matchPattern]⟩
  | last ir => exact ⟨fun _ => true, by rw [matchPattern]⟩
  | step grant ir next rest h ih =>
    obtain ⟨hnew, hrest⟩ := List.nodup_cons.mp hpc
    have hsub := (List.drop_sublist (matchAt (fun _ => grant) ir next rest).2 (next :: rest)).map Insn.pc
    obtain ⟨alloc, rfl⟩ := ih (hrest.sublist hsub)
    refine ⟨Function.update alloc ir.pc grant, ?_⟩
    have hhead : matchAt (Function.update alloc ir.pc grant) ir next rest = matchAt (fun _ => grant) ir next rest := by
      refine matchAt_congr ?_ next rest
      exact Function.update_self ir.pc grant alloc
    rw [matchPattern, hhead]
    refine congrArg _ (matchPattern_congr fun x hx => (Function.update_of_ne (fun heq => hnew ?_) _ _).symm)
    rw [← heq]
    exact hsub.subset (List.mem_map_of_mem hx)

/-! ## The pass in memory -/

section Pass

variable {σ : Type} (alloc : σ → Bool × σ)

theorem ListedFrom.lt_pred_iff {i : Nat} {s : IrState} {l : List (Ref × IrNode)} (h : ListedFrom i s l)
    (hpos : l ≠ [] ∨ 0 < i) : BitVec.ofNat 32 i < s.block.nInsn - 1 ↔ 2 ≤ l.length := by
  have hn := h.n_insn
  have hlt := s.block.nInsn.isLt
  have hpos' : 0 < i + l.length := by
    rcases hpos with hne | hi
    · exact Nat.lt_of_lt_of_le (List.length_pos_iff.mpr hne) (Nat.le_add_left _ _)
    · exact Nat.lt_of_lt_of_le hi (Nat.le_add_right _ _)
  have hpred : (s.block.nInsn - 1).toNat = i + l.length - 1 := by
    rw [BitVec.toNat_sub, hn]
    change (2 ^ 32 - 1 + (i + l.length)) % 2 ^ 32 = _
    omega
  rw [BitVec.lt_def, h.toNat_index, hpred]
  omega

/-- The scan of the nodes that are left: index, node and bound go together. -/
theorem scanIr_fused {n i : Nat} {s : IrState} {l : List (Ref × IrNode)} (h : ListedFrom i s l) (hpos : l ≠ [] ∨ 0 < i)
    (hn : l.length < n) (m : σ) :
    ∃ s' m' l', scanIr alloc n (BitVec.ofNat 32 i) (first none l) s m = some (s', m') ∧ ListedFrom i s' l' ∧
      first none l' = first none l ∧ (∀ x ∈ addrs l', x ∈ addrs l) ∧ (l = [] → s' = s) ∧ IrKept s s' l ∧
      FusesTo (insns l') (insns l) := by
  induction n generalizing i s l m with
  | zero => exact absurd hn (Nat.not_lt_zero _)
  | succ n ih =>
    have hloop := h.lt_pred_iff hpos
    match l, h, hn with
    | [], h, _ =>
      refine ⟨s, m, [], ?_, h, rfl, fun _ hx => hx, fun _ => rfl, ⟨fun _ _ => rfl, rfl, rfl⟩, .nil⟩
      rw [scanIr, if_neg fun hlt => absurd (hloop.mp hlt) (Nat.not_succ_le_zero 1)]
    | [(a, v)], h, _ =>
      refine ⟨s, m, [(a, v)], ?_, h, rfl, fun _ hx => hx, fun _ => rfl, ⟨fun _ _ => rfl, rfl, rfl⟩, .last v.insn⟩
      rw [scanIr, if_neg fun hlt => absurd (hloop.mp hlt) (Nat.not_succ_le_self 1)]
    | (a, v) :: (b, w) :: l, h, hn =>
      obtain ⟨s₁, m₁, v', hmatch, hv', h₁, hkept₁⟩ := matchIr_listed alloc h m
      have hrest : insns (((b, w) :: l).drop (matchAt (fun _ => (alloc m).1) v.insn w.insn (insns l)).2) =
          (w.insn :: insns l).drop (matchAt (fun _ => (alloc m).1) v.insn w.insn (insns l)).2 := List.map_drop
      have hlen : (((b, w) :: l).drop (matchAt (fun _ => (alloc m).1) v.insn w.insn (insns l)).2).length < n := by
        rw [List.length_cons] at hn
        rw [List.length_drop]
        omega
      obtain ⟨s₂, m₂, l₂, hrun, h₂, hfirst, hsub, hnil, hkept₂, hfuses⟩ := ih h₁.tail (.inr (Nat.succ_pos i)) hlen m₁
      have hstep := FusesTo.step (alloc m).1 v.insn w.insn (insns l) (hrest ▸ hfuses)
      generalize matchAt (fun _ => (alloc m).1) v.insn w.insn (insns l) = r at *
      have haddrs : ∀ x ∈ addrs (((b, w) :: l).drop r.2), x ∈ addrs ((a, v) :: (b, w) :: l) := by
        intro x hx
        rw [addrs, List.map_drop] at hx
        exact List.mem_cons_of_mem _ (List.mem_of_mem_drop hx)
      have hnot : a ∉ addrs (((b, w) :: l).drop r.2) := (List.nodup_cons.mp h₁.nodup).1
      refine ⟨s₂, m₂, (a, v') :: l₂, ?_, h₂.cons ?_ (fun hmem => hnot (hsub a hmem)) fun hl₂ => ?_, rfl, ?_,
        fun habs => absurd habs (List.cons_ne_nil _ _), hkept₁.trans hkept₂ haddrs, ?_⟩
      · rw [scanIr, if_pos (hloop.mpr (Nat.le_add_left 2 l.length))]
        simp only [first_cons, hmatch, h₁.laid.1, Option.bind_eq_bind, Option.bind_some]
        rw [BitVec.ofNat_add] at hrun
        exact hrun
      · rw [hkept₂.heap a hnot, h₁.laid.1, hfirst]
      · have hempty : ((b, w) :: l).drop r.2 = [] := by
          rw [hl₂] at hfirst
          cases hd : ((b, w) :: l).drop r.2 with
          | nil => rfl
          | cons x l' =>
            rw [hd] at hfirst
            cases hfirst
        rw [hnil hempty, h₁.ir_tail (List.cons_ne_nil _ _), hempty]
        rfl
      · intro x hx
        rcases List.mem_cons.mp hx with rfl | hx
        · exact List.mem_cons_self
        · exact haddrs x (hsub x hx)
      · rw [insns, List.map_cons, hv']
        exact hstep

/-- **The pass ends and keeps the block a list.** -/
theorem matchPatternIr_listed {s : IrState} {l : List (Ref × IrNode)} (h : Listed s l) (m : σ) :
    ∃ s' m' l', matchPatternIr alloc s m = some (s', m') ∧ Listed s' l' ∧ s'.block.cycleCost = s.block.cycleCost ∧
      FusesTo (insns l') (insns l) := by
  have hn : l.length < s.block.nInsn.toNat + 1 := by
    rw [h.n_insn, Nat.zero_add]
    exact Nat.lt_succ_self _
  obtain ⟨s', m', l', hrun, hl, hfirst, -, -, hkept, hfuses⟩ :=
    scanIr_fused alloc h.toListedFrom (.inl h.ne_nil) hn m
  refine ⟨s', m', l', ?_, ⟨hl, ?_, fun hnil => h.ne_nil ?_⟩, hkept.cycle_cost, hfuses⟩
  · rw [matchPatternIr, h.ir_head]
    exact hrun
  · rw [hkept.ir_head, h.ir_head, hfirst]
  · rw [hnil] at hfuses
    have hnil' : insns l = [] := by
      generalize insns l = irs at hfuses
      cases hfuses
      rfl
    exact List.map_eq_nil_iff.mp hnil'

end Pass

/-! ## Blocks -/

/-- The nodes of a block are at different addresses. -/
theorem translateLoop_sorted (extC : Bool) (fetch : Word → Word) {pEnd : Word}
    (hpage : pEnd = 0 ∨ pEnd.toNat + 4 ≤ 2 ^ 32) (n : Nat) {pc : Word} (hpc : pEnd = 0 ∨ pc < pEnd) :
    (∀ ir ∈ (translateLoop extC fetch pEnd n pc).1, pc.toNat ≤ ir.pc.toNat) ∧
      (translateLoop extC fetch pEnd n pc).1.Pairwise fun x y => x.pc.toNat < y.pc.toNat := by
  induction n generalizing pc with
  | zero => exact ⟨fun _ hx => absurd hx List.not_mem_nil, .nil⟩
  | succ n ih =>
    unfold translateLoop
    simp only
    split
    · exact ⟨fun _ hx => absurd hx List.not_mem_nil, .nil⟩
    · split
      · exact ⟨fun _ hx => absurd hx List.not_mem_nil, .nil⟩
      · exact ⟨fun _ hx => absurd hx List.not_mem_nil, .nil⟩
      · rename_i ir hdec
        have hsingle : ∀ x ∈ [{ ir with pc := pc }], pc.toNat ≤ x.pc.toNat := fun x hx =>
          List.mem_singleton.mp hx ▸ Nat.le_refl _
        split_ifs with hb hp
        · exact ⟨hsingle, List.pairwise_singleton _ _⟩
        · exact ⟨hsingle, List.pairwise_singleton _ _⟩
        · have hlt : pc + insnLen (fetch pc) < pEnd := BitVec.not_le.mp hp
          have hE : pEnd ≠ 0 := by
            rintro rfl
            exact absurd (BitVec.lt_def.mp hlt) (Nat.not_lt_zero _)
          have hpc' := BitVec.lt_def.mp (hpc.resolve_left hE)
          have hE' := hpage.resolve_left hE
          have hlen := insnLen_toNat (fetch pc)
          have hadd : (pc + insnLen (fetch pc)).toNat = pc.toNat + (insnLen (fetch pc)).toNat := by
            rw [BitVec.toNat_add, Nat.mod_eq_of_lt]
            omega
          obtain ⟨hge, hsorted⟩ := ih (.inr hlt)
          have hafter : ∀ x ∈ (translateLoop extC fetch pEnd n (pc + insnLen (fetch pc))).1, pc.toNat < x.pc.toNat := by
            intro x hx
            have := hge x hx
            omega
          refine ⟨fun x hx => ?_, .cons hafter hsorted⟩
          rcases List.mem_cons.mp hx with rfl | hx
          · exact Nat.le_refl _
          · exact Nat.le_of_lt (hafter x hx)

theorem constoptRun_map_pc (irs : List Insn) (info : ConstoptInfo) :
    (constoptRun irs info).1.map Insn.pc = irs.map Insn.pc := by
  induction irs generalizing info with
  | nil => rfl
  | cons ir irs ih => exact congrArg₂ (· :: ·) (constopt_pc ir info) (ih _)

theorem optimizeConstant_pc_nodup (extC : Bool) (fetch : Word → Word) (pc : Word) :
    ((optimizeConstant (blockTranslate extC fetch pc).1).map Insn.pc).Nodup := by
  have hE := pageEnd_toNat pc
  have hpc := pc.isLt
  have hsorted : (blockTranslate extC fetch pc).1.Pairwise fun x y => x.pc.toNat < y.pc.toNat := by
    by_cases h0 : pageEnd pc = 0
    · exact (translateLoop_sorted extC fetch (.inl h0) 2048 (.inl h0)).2
    · have hne : (pageEnd pc).toNat ≠ 0 := fun h => h0 (BitVec.eq_of_toNat_eq h)
      refine (translateLoop_sorted extC fetch (.inr ?_) 2048 (.inr (BitVec.lt_def.mpr ?_))).2
      all_goals omega
  rw [optimizeConstant, constoptRun_map_pc, List.Nodup, List.pairwise_map]
  exact hsorted.imp fun hlt heq => absurd (congrArg BitVec.toNat heq) (Nat.ne_of_lt hlt)

section Block

variable {extC : Bool} {fetch : Word → Word} {pool : IrPool} {tableOk : Bool} {h : IrHeap} {b : BlockHdr} {pc : Word}
  {s : IrState} {σ : Type} (alloc : σ → Bool × σ) (m : σ)

/-- **The fusion pass keeps the block consistent.** For a block that `block_translate` returns, `optimize_constant` and
`match_pattern` end without reading a missing node; afterwards `n_insn`, `ir_tail` and the list agree, each node stands
for some of the instructions that were there before, in order, its fuse array holds them, and together they stand for as
many as `cycle_cost` says. -/
theorem fusedBlock_consistent
    (hrun : blockTranslateIr extC fetch pool tableOk h (blockAlloc b) pc = some (true, s)) :
    ∃ s₁ l₁ s₂ m₂ l₂ gs, optimizeConstantIr s = some s₁ ∧ Listed s₁ l₁ ∧
      insns l₁ = optimizeConstant (blockTranslate extC fetch pc).1 ∧
      matchPatternIr alloc s₁ m = some (s₂, m₂) ∧ Listed s₂ l₂ ∧
      List.Forall₂ Stands (insns l₂) gs ∧ gs.flatten = insns l₁ ∧
      ((insns l₂).map represented).sum = s₂.block.cycleCost.toNat := by
  obtain ⟨l, hl, hcost, hinsns⟩ := blockTranslateIr_listed hrun
  obtain ⟨s₁, l₁, hopt, hl₁, hblock, hinsns₁⟩ := optimizeConstantIr_listed hl
  obtain ⟨s₂, m₂, l₂, hmatch, hl₂, hcost₂, hfuses⟩ := matchPatternIr_listed alloc hl₁ m
  rw [hinsns] at hinsns₁
  have hun : Unfused (optimizeConstant (blockTranslate extC fetch pc).1) :=
    (translateLoop_irBlock extC fetch (pageEnd pc) 2048 pc).optimizeConstant_unfused
  obtain ⟨gs, hgs, hflat⟩ := hfuses.stands (hinsns₁ ▸ hun.not_fuse)
  refine ⟨s₁, l₁, s₂, m₂, l₂, gs, hopt, hl₁, hinsns₁, hmatch, hl₂, hgs, hflat, ?_⟩
  rw [represented_sum hgs, hflat, hcost₂, hblock, hcost, ← hblock, hl₁.n_insn, Nat.zero_add, List.length_map]

def smallPool : IrPool where
  slot h := [0, 1, 2, 3].find? fun a => (h a).isNone
  slot_free hslot := by
    have hfree := List.find?_some hslot
    exact Option.isNone_iff_eq_none.mp hfree

/-- `lui a0, 1; lui a1, 1; j .`. -/
def twoLuis (pc : Word) : Word := if pc = 0 then 0x00001537 else if pc = 4 then 0x000015b7 else 0x0000006f

theorem fusedBlock_consistent_twoLuis :
    ∃ s s₁ l₁ s₂ m₂ l₂ gs, blockTranslateIr false twoLuis smallPool true (fun _ => none)
        (blockAlloc ⟨9, 9, 9, 9, none, none, false⟩) 0 = some (true, s) ∧
      optimizeConstantIr s = some s₁ ∧ Listed s₁ l₁ ∧ insns l₁ = optimizeConstant (blockTranslate false twoLuis 0).1 ∧
      matchPatternIr (fun m : Unit => (true, m)) s₁ () = some (s₂, m₂) ∧ Listed s₂ l₂ ∧
      List.Forall₂ Stands (insns l₂) gs ∧ gs.flatten = insns l₁ ∧
      ((insns l₂).map represented).sum = s₂.block.cycleCost.toNat := by
  have hok : (blockTranslateIr false twoLuis smallPool true (fun _ => none)
      (blockAlloc ⟨9, 9, 9, 9, none, none, false⟩) 0).map Prod.fst = some true := by decide
  obtain ⟨⟨ok, s⟩, hs, rfl⟩ := Option.map_eq_some_iff.mp hok
  obtain ⟨s₁, l₁, s₂, m₂, l₂, gs, hrest⟩ := fusedBlock_consistent (fun m : Unit => (true, m)) () hs
  exact ⟨s, s₁, l₁, s₂, m₂, l₂, gs, hs, hrest⟩

/-- **The pass on the linked list is `matchPattern` on its instructions.** -/
theorem matchPatternIr_refines
    (hrun : blockTranslateIr extC fetch pool tableOk h (blockAlloc b) pc = some (true, s)) :
    ∃ s₁ s₂ m₂ l₂ grant, optimizeConstantIr s = some s₁ ∧ matchPatternIr alloc s₁ m = some (s₂, m₂) ∧ Listed s₂ l₂ ∧
      insns l₂ = matchPattern grant (optimizeConstant (blockTranslate extC fetch pc).1) := by
  obtain ⟨l, hl, -, hinsns⟩ := blockTranslateIr_listed hrun
  obtain ⟨s₁, l₁, hopt, hl₁, -, hinsns₁⟩ := optimizeConstantIr_listed hl
  obtain ⟨s₂, m₂, l₂, hmatch, hl₂, -, hfuses⟩ := matchPatternIr_listed alloc hl₁ m
  rw [hinsns₁, hinsns] at hfuses
  obtain ⟨grant, hgrant⟩ := hfuses.eq_matchPattern (optimizeConstant_pc_nodup extC fetch pc)
  exact ⟨s₁, s₂, m₂, l₂, grant, hopt, hmatch, hl₂, hgrant⟩

end Block

end Rv32emu
