import Rv32emu.FusionSound
import Rv32emu.ListHeap

/-!
# The IR list in memory

`block_translate` and `optimize_constant` over nodes linked by `next`, in a user-mode build with block chaining.

* `IrPool` : the pool the nodes come from; `IrNode`, `BlockHdr`, `IrState` : nodes, the block and the memory;
* `blockTranslateIr`, `optimizeConstantIr` : as in the source; `none` where a missing node is read, in the `abort` of
  `rv_decode`, and where a loop makes more turns than it is given;
* `Listed` : the block's list, with its counters and its ends;
* `blockTranslateIr_listed`, `optimizeConstantIr_listed` : a block that is returned has the nodes of `blockTranslate`,
  and then those of `optimizeConstant`.
-/

namespace Rv32emu

open ListHeap

/-! ## The functions -/

/-- `rv_insn_t` without `next`. -/
structure IrNode where
  insn : Insn := {}
  links : Links := {}
  deriving DecidableEq, Repr

abbrev IrHeap := Heap IrNode

/-- `block_ir_mp`: which slot is handed out next, one that is free. -/
structure IrPool where
  slot : IrHeap → Option Ref
  slot_free : ∀ {h a}, slot h = some a → h a = none

def IrPool.calloc (pool : IrPool) (h : IrHeap) : Option (Ref × IrHeap) :=
  (pool.slot h).map fun a => (a, Function.update h a (some ⟨{}, none⟩))

def irFree (h : IrHeap) (a : Ref) : IrHeap := Function.update h a none

/-- `if (prev_ir->next) mpool_free(prev_ir->next)`: a node that was handed out and has not been decoded. -/
def irFreeNext (h : IrHeap) : Option Ref → IrHeap
  | none => h
  | some a => irFree h a

/-- The fields of `block_t` that are used here. -/
structure BlockHdr where
  nInsn : Word
  pcStart : Word
  pcEnd : Word
  cycleCost : Word
  irHead : Option Ref
  irTail : Option Ref
  pageTerminated : Bool
  deriving DecidableEq, Repr

structure IrState where
  heap : IrHeap
  block : BlockHdr

section Translate

variable (extC : Bool) (fetch : Word → Word) (pool : IrPool) (tableOk : Bool)

/-- `if (prev_ir) prev_ir->next = ir`. -/
def linkPrev (h : IrHeap) (prev : Option Ref) (ir : Ref) : Option IrHeap :=
  match prev with
  | none => some h
  | some p => modify h p fun c => { c with next := some ir }

/-- The loop of `block_translate` with `prev_ir`: whether it ends by `break` or by `return false`. `tableOk` says
whether `calloc` has memory for the branch table, which is asked for at most once. -/
def translateIr : Nat → IrState → Option Ref → Ref → Option (Bool × IrState × Option Ref)
  | 0, _, _, _ => none
  | n + 1, s, prev, ir => do
    let h ← linkPrev s.heap prev ir
    let insn := fetch s.block.pcEnd
    if insn = 0 then return (true, ⟨h, s.block⟩, prev)
    match rvDecode extC insn with
    | .abort => none
    | .illegal ir' =>
      let h ← modify h ir fun c => { c with val := { c.val with insn := ir' } }
      return (true, ⟨h, s.block⟩, prev)
    | .ok ir' =>
      let h ← modify h ir fun c => { c with val := { c.val with insn := { ir' with pc := s.block.pcEnd } } }
      let block := { s.block with pcEnd := s.block.pcEnd + insnLen insn, nInsn := s.block.nInsn + 1 }
      if ir'.opcode.canBranch then return (!ir'.opcode.isIndirectBranch || tableOk, ⟨h, block⟩, some ir)
      if pageEnd block.pcStart ≤ block.pcEnd then
        return (true, ⟨h, { block with pageTerminated := true }⟩, some ir)
      match pool.calloc h with
      | none => return (false, ⟨h, block⟩, some ir)
      | some (next, h) => translateIr n ⟨h, block⟩ (some ir) next

/-- `block_alloc`: what else is in the memory of the block stays there. -/
def blockAlloc (b : BlockHdr) : BlockHdr := { b with nInsn := 0 }

/-- `block_translate` for the block `b` at `pc`, with its return value. -/
def blockTranslateIr (h : IrHeap) (b : BlockHdr) (pc : Word) : Option (Bool × IrState) := do
  let b := { b with pcStart := pc, pcEnd := pc, pageTerminated := false }
  match pool.calloc h with
  | none => return (false, ⟨h, b⟩)
  | some (ir, h) =>
    let (ok, s, prev) ← translateIr extC fetch pool tableOk 2048 ⟨h, { b with irHead := some ir }⟩ none ir
    if !ok then return (false, s)
    match prev with
    | none => return (false, { s with heap := irFree s.heap ir })
    | some p =>
      let last ← s.heap p
      let h ← modify (irFreeNext s.heap last.next) p fun c => { c with next := none }
      return (true, ⟨h, { s.block with irTail := some p, cycleCost := s.block.nInsn }⟩)

end Translate

/-- The loop of `optimize_constant`. -/
def constoptIr : Nat → Word → Option Ref → IrState → ConstoptInfo → Option IrState
  | 0, _, _, _, _ => none
  | n + 1, i, ir, s, info =>
    if i < s.block.nInsn then do
      let p ← ir
      let node ← s.heap p
      let r := constopt node.val.insn info
      let h ← modify s.heap p fun c => { c with val := { c.val with insn := r.1 } }
      constoptIr n (i + 1) node.next { s with heap := h } r.2
    else some s

def optimizeConstantIr (s : IrState) : Option IrState :=
  constoptIr (s.block.nInsn.toNat + 1) 0 s.block.irHead s .init

/-! ## The list of a block -/

abbrev insns (l : List (Ref × IrNode)) : List Insn := l.map fun x => x.2.insn

def lastRef (l : List (Ref × IrNode)) : Option Ref := l.getLast?.map Prod.fst

/-- The nodes of a block from the one with index `i` on. -/
structure ListedFrom (i : Nat) (s : IrState) (l : List (Ref × IrNode)) : Prop where
  laid : Laid s.heap none l
  nodup : (addrs l).Nodup
  n_insn : s.block.nInsn.toNat = i + l.length
  ir_tail : l ≠ [] → s.block.irTail = lastRef l

/-- `ir_head` to `ir_tail`, whose `next` is null. -/
structure Listed (s : IrState) (l : List (Ref × IrNode)) : Prop extends ListedFrom 0 s l where
  ir_head : s.block.irHead = first none l
  ne_nil : l ≠ []

/-- Nothing but the nodes of `l`, the number of nodes and the last one is changed. -/
structure IrKept (s s' : IrState) (l : List (Ref × IrNode)) : Prop where
  heap : ∀ a, a ∉ addrs l → s'.heap a = s.heap a
  ir_head : s'.block.irHead = s.block.irHead
  cycle_cost : s'.block.cycleCost = s.block.cycleCost

section ListedFrom

variable {i : Nat} {s s' s'' : IrState} {l l' : List (Ref × IrNode)} {a : Ref} {v : IrNode}

theorem IrKept.trans (h : IrKept s s' l) (h' : IrKept s' s'' l') (hsub : ∀ x ∈ addrs l', x ∈ addrs l) :
    IrKept s s'' l where
  heap x hx := (h'.heap x fun hmem => hx (hsub x hmem)).trans (h.heap x hx)
  ir_head := h'.ir_head.trans h.ir_head
  cycle_cost := h'.cycle_cost.trans h.cycle_cost

theorem lastRef_cons (hne : l ≠ []) (x : Ref × IrNode) : lastRef (x :: l) = lastRef l := by
  cases l with
  | nil => exact absurd rfl hne
  | cons y l => rw [lastRef, List.getLast?_cons_cons, lastRef]

theorem ListedFrom.tail (h : ListedFrom i s ((a, v) :: l)) : ListedFrom (i + 1) s l where
  laid := h.laid.2
  nodup := (List.nodup_cons.mp h.nodup).2
  n_insn := by rw [h.n_insn, List.length_cons, Nat.add_right_comm, Nat.add_assoc]
  ir_tail hne := (h.ir_tail (List.cons_ne_nil _ l)).trans (lastRef_cons hne _)

theorem ListedFrom.cons (h : ListedFrom (i + 1) s l) (ha : s.heap a = some ⟨v, first none l⟩) (hnot : a ∉ addrs l)
    (htail : l = [] → s.block.irTail = some a) : ListedFrom i s ((a, v) :: l) where
  laid := ⟨ha, h.laid⟩
  nodup := List.nodup_cons.mpr ⟨hnot, h.nodup⟩
  n_insn := by rw [h.n_insn, List.length_cons, Nat.add_right_comm, Nat.add_assoc]
  ir_tail _ := by
    by_cases hnil : l = []
    · rw [htail hnil, hnil]
      rfl
    · rw [h.ir_tail hnil, lastRef_cons hnil]

theorem ListedFrom.toNat_index (h : ListedFrom i s l) : (BitVec.ofNat 32 i).toNat = i := by
  have hlt := s.block.nInsn.isLt
  have hn := h.n_insn
  rw [BitVec.toNat_ofNat, Nat.mod_eq_of_lt (by omega)]

theorem ListedFrom.index_lt_iff (h : ListedFrom i s l) : BitVec.ofNat 32 i < s.block.nInsn ↔ l ≠ [] := by
  rw [BitVec.lt_def, h.toNat_index, h.n_insn, ← List.length_pos_iff]
  omega

end ListedFrom

/-! ## `block_translate` -/

/-- The nodes that have been decoded; the last one points to `e`. -/
structure Translating (s : IrState) (prev e : Option Ref) (l : List (Ref × IrNode)) : Prop where
  laid : Laid s.heap e l
  nodup : (addrs l).Nodup
  fresh : ∀ a, e = some a → a ∉ addrs l
  prev_eq : prev = lastRef l
  n_insn : s.block.nInsn = BitVec.ofNat 32 l.length
  ir_head : l ≠ [] → s.block.irHead = first none l

section Translate

variable {extC : Bool} {fetch : Word → Word} {pool : IrPool} {tableOk : Bool} {s s' : IrState}
  {prev prev' e : Option Ref} {l : List (Ref × IrNode)} {ir : Ref}

theorem lastRef_concat (l : List (Ref × IrNode)) (a : Ref) (v : IrNode) : lastRef (l ++ [(a, v)]) = some a := by
  rw [lastRef, List.getLast?_concat, Option.map_some]

theorem addrs_concat_nodup (hnd : (addrs l).Nodup) (hir : ir ∉ addrs l) (v : IrNode) :
    (addrs (l ++ [(ir, v)])).Nodup := by
  rw [addrs, List.map_append, List.map_singleton]
  refine List.nodup_append.mpr ⟨hnd, List.nodup_singleton ir, fun a ha b hb heq => hir ?_⟩
  rw [List.mem_singleton.mp hb] at heq
  subst heq
  exact ha

/-- The node in hand is linked to the ones before. -/
theorem Translating.link (h : Translating s prev none l) (hir : ir ∉ addrs l) {c : Node IrNode}
    (hc : s.heap ir = some c) :
    ∃ h', linkPrev s.heap prev ir = some h' ∧ Laid h' (some ir) l ∧ h' ir = some c := by
  rcases List.eq_nil_or_concat' l with rfl | ⟨init, ⟨p, v⟩, rfl⟩
  · rw [h.prev_eq]
    exact ⟨s.heap, rfl, trivial, hc⟩
  · have hp := (laid_append.mp h.laid).2.1
    have hne : ir ≠ p := by
      rintro rfl
      exact hir (List.mem_map.mpr ⟨(ir, v), List.mem_append_right _ List.mem_cons_self, rfl⟩)
    rw [h.prev_eq, lastRef_concat]
    refine ⟨_, modify_eq hp _, h.laid.set_last h.nodup v (some ir), ?_⟩
    rw [Function.update_of_ne hne]
    exact hc

theorem Translating.push (h : Translating s prev none l) (hir : ir ∉ addrs l)
    (hhead : l = [] → s.block.irHead = some ir) {h' : IrHeap} (hl : Laid h' (some ir) l) (node : IrNode)
    (block : BlockHdr) (hn : block.nInsn = s.block.nInsn + 1)
    (hb : block.irHead = s.block.irHead) :
    Translating ⟨Function.update h' ir (some ⟨node, none⟩), block⟩ (some ir) none (l ++ [(ir, node)]) where
  laid := laid_append.mpr ⟨hl.update hir _, Function.update_self ir _ h', trivial⟩
  nodup := addrs_concat_nodup h.nodup hir node
  fresh _ ha := absurd ha (Option.some_ne_none _).symm
  prev_eq := (lastRef_concat l ir node).symm
  n_insn := by
    rw [hn, h.n_insn, List.length_append, List.length_singleton, BitVec.ofNat_add]
    rfl
  ir_head _ := by
    rw [hb]
    cases l with
    | nil => exact hhead rfl
    | cons x l => exact h.ir_head (List.cons_ne_nil x l)

theorem Translating.calloc (h : Translating s prev none l) {h' : IrHeap} {a : Ref}
    (ha : pool.calloc s.heap = some (a, h')) :
    Translating ⟨h', s.block⟩ prev none l ∧ a ∉ addrs l ∧ h' a = some ⟨{}, none⟩ := by
  obtain ⟨a', hslot, heq⟩ := Option.map_eq_some_iff.mp ha
  cases heq
  have hnot : a ∉ addrs l := fun hmem => h.laid.mem hmem (pool.slot_free hslot)
  exact ⟨⟨h.laid.update hnot _, h.nodup, h.fresh, h.prev_eq, h.n_insn, h.ir_head⟩, hnot, Function.update_self ..⟩

theorem translateIr_translating {n : Nat} (h : Translating s prev none l) (hir : ir ∉ addrs l)
    (hcell : s.heap ir = some ⟨{}, none⟩) (hhead : l = [] → s.block.irHead = some ir)
    (hrun : translateIr extC fetch pool tableOk n s prev ir = some (true, s', prev')) :
    ∃ e l', Translating s' prev' e l' ∧
      insns l' = insns l ++ (translateLoop extC fetch (pageEnd s.block.pcStart) n s.block.pcEnd).1 := by
  induction n generalizing s prev ir l with
  | zero => cases hrun
  | succ n ih =>
    obtain ⟨h₁, hlink, hlaid, hcell₁⟩ := h.link hir hcell
    unfold translateIr at hrun
    simp only [hlink, Option.bind_eq_bind, Option.bind_some, Option.pure_def] at hrun
    unfold translateLoop
    simp only
    -- A node that is linked but not decoded stays behind the list.
    have hstop : ∀ h₂, (∀ a ∈ addrs l, h₂ a = h₁ a) → Translating ⟨h₂, s.block⟩ prev (some ir) l := fun h₂ hsame =>
      ⟨hlaid.congr hsame, h.nodup, fun a ha => Option.some.inj ha ▸ hir, h.prev_eq, h.n_insn, h.ir_head⟩
    by_cases hzero : fetch s.block.pcEnd = 0
    · rw [if_pos hzero] at hrun ⊢
      cases hrun
      exact ⟨some ir, l, hstop h₁ fun _ _ => rfl, (List.append_nil _).symm⟩
    rw [if_neg hzero] at hrun ⊢
    cases hdec : rvDecode extC (fetch s.block.pcEnd) with
    | abort =>
      rw [hdec] at hrun
      cases hrun
    | illegal ir' =>
      simp only [hdec, modify_eq hcell₁, Option.bind_some] at hrun
      cases hrun
      refine ⟨some ir, l, hstop _ fun a ha => Function.update_of_ne (fun heq => hir ?_) _ _, (List.append_nil _).symm⟩
      exact heq ▸ ha
    | ok ir' =>
      simp only [hdec, modify_eq hcell₁, Option.bind_some] at hrun
      have hpush := h.push hir hhead hlaid { insn := { ir' with pc := s.block.pcEnd } }
      have hinsns : insns (l ++ [(ir, { insn := { ir' with pc := s.block.pcEnd } })]) =
          insns l ++ [{ ir' with pc := s.block.pcEnd }] := by
        rw [insns, List.map_append, List.map_singleton]
      by_cases hbranch : ir'.opcode.canBranch = true
      · simp only [if_pos hbranch, Option.some.injEq, Prod.mk.injEq] at hrun ⊢
        obtain ⟨-, rfl, rfl⟩ := hrun
        exact ⟨none, _, hpush _ rfl rfl, hinsns⟩
      simp only [if_neg hbranch] at hrun ⊢
      by_cases hpage : pageEnd s.block.pcStart ≤ s.block.pcEnd + insnLen (fetch s.block.pcEnd)
      · simp only [if_pos hpage, Option.some.injEq, Prod.mk.injEq] at hrun ⊢
        obtain ⟨-, rfl, rfl⟩ := hrun
        exact ⟨none, _, hpush _ rfl rfl, hinsns⟩
      simp only [if_neg hpage] at hrun ⊢
      split at hrun
      · cases hrun
      · rename_i next h₂ halloc
        obtain ⟨hnext, hfresh, hcell₂⟩ := (hpush { s.block with
          pcEnd := s.block.pcEnd + insnLen (fetch s.block.pcEnd), nInsn := s.block.nInsn + 1 } rfl rfl).calloc halloc
        obtain ⟨e, l', htr, heq⟩ := ih hnext hfresh hcell₂ (fun hnil => absurd hnil (List.concat_ne_nil _ _)) hrun
        refine ⟨e, l', htr, ?_⟩
        rw [heq, hinsns, List.append_assoc, List.singleton_append]

theorem translateLoop_length_le (extC : Bool) (fetch : Word → Word) (pEnd : Word) (n : Nat) (pc : Word) :
    (translateLoop extC fetch pEnd n pc).1.length ≤ n := by
  induction n generalizing pc with
  | zero => exact Nat.le_refl 0
  | succ n ih =>
    unfold translateLoop
    simp only
    split
    · exact Nat.zero_le _
    · split
      · exact Nat.zero_le _
      · exact Nat.zero_le _
      · split_ifs
        · exact Nat.le_add_left 1 n
        · exact Nat.le_add_left 1 n
        · exact Nat.succ_le_succ (ih _)

/-- **A block that is returned is a list, and its counters agree.** -/
theorem blockTranslateIr_listed {h : IrHeap} {b : BlockHdr} {pc : Word}
    (hrun : blockTranslateIr extC fetch pool tableOk h (blockAlloc b) pc = some (true, s)) :
    ∃ l, Listed s l ∧ s.block.cycleCost = s.block.nInsn ∧ insns l = (blockTranslate extC fetch pc).1 := by
  unfold blockTranslateIr at hrun
  simp only [Option.bind_eq_bind, Option.pure_def] at hrun
  split at hrun
  · cases hrun
  rename_i ir h₁ halloc
  obtain ⟨⟨ok, s₁, prev⟩, hloop, hrest⟩ := Option.bind_eq_some_iff.mp hrun
  clear hrun
  cases ok with
  | false => cases hrest
  | true =>
    have hstart : Translating ⟨h, { blockAlloc b with
        pcStart := pc, pcEnd := pc, pageTerminated := false }⟩ none none [] :=
      ⟨trivial, List.nodup_nil, fun _ _ => List.not_mem_nil, rfl, rfl, fun hne => absurd rfl hne⟩
    obtain ⟨hstart₁, hir, hcell⟩ := hstart.calloc halloc
    have hstart₂ : Translating ⟨h₁, { blockAlloc b with
        pcStart := pc, pcEnd := pc, pageTerminated := false, irHead := some ir }⟩ none none [] :=
      ⟨hstart₁.laid, hstart₁.nodup, hstart₁.fresh, rfl, rfl, fun hne => absurd rfl hne⟩
    obtain ⟨e, l, htr, hinsns⟩ := translateIr_translating hstart₂ hir hcell (fun _ => rfl) hloop
    rcases List.eq_nil_or_concat' l with rfl | ⟨init, ⟨p, v⟩, rfl⟩
    · have hprev := htr.prev_eq
      cases hprev
      cases hrest
    have hlast : s₁.heap p = some ⟨v, e⟩ := (laid_append.mp htr.laid).2.1
    have hlaid : Laid (irFreeNext s₁.heap e) e (init ++ [(p, v)]) := by
      cases e with
      | none => exact htr.laid
      | some orphan => exact htr.laid.update (htr.fresh orphan rfl) none
    have hcell₂ : irFreeNext s₁.heap e p = some ⟨v, e⟩ := (laid_append.mp hlaid).2.1
    have hprev : prev = some p := htr.prev_eq.trans (lastRef_concat init p v)
    simp only [hprev, hlast, modify_eq hcell₂, Option.bind_some, Bool.not_true, Bool.false_eq_true, if_false,
      Option.some.injEq, Prod.mk.injEq, true_and] at hrest
    subst hrest
    have hlen : (init ++ [(p, v)]).length < 2 ^ 32 := by
      have hle := translateLoop_length_le extC fetch (pageEnd pc) 2048 pc
      have heq := congrArg List.length hinsns
      rw [insns, List.length_map] at heq
      rw [heq]
      exact lt_of_le_of_lt hle (by decide)
    refine ⟨init ++ [(p, v)], ⟨⟨?_, htr.nodup, ?_, fun _ => (lastRef_concat init p v).symm⟩, ?_,
      List.concat_ne_nil _ _⟩,
      rfl, hinsns⟩
    · exact hlaid.set_last htr.nodup v none
    · change s₁.block.nInsn.toNat = _
      rw [htr.n_insn, BitVec.toNat_ofNat, Nat.mod_eq_of_lt hlen, Nat.zero_add]
    · exact htr.ir_head (List.concat_ne_nil _ _)

end Translate

/-! ## `optimize_constant` -/

theorem constoptIr_listed {i n : Nat} {s : IrState} {l : List (Ref × IrNode)} (info : ConstoptInfo)
    (h : ListedFrom i s l) (hn : l.length < n) :
    ∃ s' l', constoptIr n (BitVec.ofNat 32 i) (first none l) s info = some s' ∧ ListedFrom i s' l' ∧
      addrs l' = addrs l ∧ insns l' = (constoptRun (insns l) info).1 ∧ s'.block = s.block ∧ IrKept s s' l := by
  induction l generalizing i n s info with
  | nil =>
    obtain ⟨n, rfl⟩ := Nat.exists_eq_succ_of_ne_zero (Nat.ne_of_gt hn)
    refine ⟨s, [], ?_, h, rfl, rfl, rfl, ⟨fun _ _ => rfl, rfl, rfl⟩⟩
    rw [constoptIr, if_neg fun hlt => h.index_lt_iff.mp hlt rfl]
  | cons x l ih =>
    obtain ⟨a, v⟩ := x
    obtain ⟨n, rfl⟩ := Nat.exists_eq_succ_of_ne_zero (Nat.ne_of_gt (Nat.zero_lt_of_lt hn))
    obtain ⟨hnot, -⟩ := List.nodup_cons.mp h.nodup
    have hcell : s.heap a = some ⟨v, first none l⟩ := h.laid.1
    -- The rest of the list is not touched by the write to the node in hand.
    have hrest : ListedFrom (i + 1)
        ⟨Function.update s.heap a (some ⟨{ v with insn := (constopt v.insn info).1 }, first none l⟩), s.block⟩ l :=
      ⟨h.tail.laid.update hnot _, h.tail.nodup, h.tail.n_insn, h.tail.ir_tail⟩
    obtain ⟨s', l', hrun, hl, haddrs, hinsns, hblock, hkept⟩ :=
      ih (constopt v.insn info).2 hrest (Nat.lt_of_succ_lt_succ hn)
    refine ⟨s', (a, { v with insn := (constopt v.insn info).1 }) :: l', ?_, hl.cons ?_ ?_ fun hnil => ?_, ?_, ?_,
      hblock,
      ?_⟩
    · rw [constoptIr, if_pos (h.index_lt_iff.mpr (List.cons_ne_nil _ l))]
      simp only [first_cons, hcell, modify_eq hcell, Option.bind_eq_bind, Option.bind_some]
      rw [BitVec.ofNat_add] at hrun
      exact hrun
    · rw [hkept.heap a hnot, first_congr haddrs]
      exact Function.update_self a _ _
    · rwa [haddrs]
    · rw [hnil] at haddrs
      rw [hblock, h.ir_tail (List.cons_ne_nil _ l), List.map_eq_nil_iff.mp haddrs.symm]
      rfl
    · exact congrArg (a :: ·) haddrs
    · exact congrArg ((constopt v.insn info).1 :: ·) hinsns
    · refine ⟨fun x hx => ?_, hkept.ir_head, hkept.cycle_cost⟩
      have hxa : x ≠ a := fun heq => hx (heq ▸ List.mem_cons_self)
      have hxl : x ∉ addrs l := fun hmem => hx (List.mem_cons_of_mem a hmem)
      rw [hkept.heap x hxl]
      exact Function.update_of_ne hxa _ _

/-- **The pass changes the instructions of the nodes, one by one.** -/
theorem optimizeConstantIr_listed {s : IrState} {l : List (Ref × IrNode)} (h : Listed s l) :
    ∃ s' l', optimizeConstantIr s = some s' ∧ Listed s' l' ∧ s'.block = s.block ∧
      insns l' = optimizeConstant (insns l) := by
  have hn : l.length < s.block.nInsn.toNat + 1 := by
    rw [h.n_insn, Nat.zero_add]
    exact Nat.lt_succ_self _
  obtain ⟨s', l', hrun, hl, haddrs, hinsns, hblock, -⟩ := constoptIr_listed .init h.toListedFrom hn
  refine ⟨s', l', ?_, ⟨hl, ?_, fun hnil => h.ne_nil ?_⟩, hblock, hinsns⟩
  · rw [optimizeConstantIr, h.ir_head]
    exact hrun
  · rw [hblock, h.ir_head, first_congr haddrs]
  · rw [hnil] at haddrs
    exact List.map_eq_nil_iff.mp haddrs.symm

end Rv32emu
