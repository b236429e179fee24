import Rv32emu.StateRel
import Rv32emu.SysEngine

/-!
# Links after an early return

A handler that gives up because of a pending signal returns `true`, so `rv_step` takes its block for one
that has run to its end and links the tail to whatever block comes next. The link is wrong, and it is
installed whenever the tail has a free slot.

* `Quiet` : a trap either resets `prev` or leaves what the linker reads alone;
* `Block.freeSlot` : the slot the linker would fill;
* `BlockMap.Kept` : no link has been installed since;
* `signal_not_linked` : when no slot is free, the iteration after the early return installs nothing;
* `signal_linked_fault` : a page fault whose handler moves `sepc` links the interrupted block to the
  block at the new `PC`.
-/

namespace Rv32emu

open StateRel

/-! ## Traps and the state of the linker -/

/-- Unless `prev` has been reset, what the linker reads is as it was. -/
def Quiet (s s' : Sys) : Prop :=
  s'.prevNull = true ∨
    (s'.prevNull = s.prevNull ∧ s'.blockMapCleared = s.blockMapCleared ∧
      s'.cpu.isBranchTaken = s.cpu.isBranchTaken ∧ s'.cpu.lastPc = s.cpu.lastPc)

instance : IsPreorder Sys Quiet where
  refl _ := .inr ⟨rfl, rfl, rfl, rfl⟩
  trans _ _ _ h h' := by
    rcases h' with h' | ⟨hp', hb', ht', hl'⟩
    · exact .inl h'
    · rcases h with h | ⟨hp, hb, ht, hl⟩
      · exact .inl (hp'.trans h)
      · exact .inr ⟨hp'.trans hp, hb'.trans hb, ht'.trans ht, hl'.trans hl⟩

theorem modifyCpu_quiet {f : Cpu → Cpu} (ht : ∀ s, (f s).isBranchTaken = s.isBranchTaken)
    (hl : ∀ s, (f s).lastPc = s.lastPc) : Within Quiet (modifyCpu f) :=
  .modify fun s => .inr ⟨rfl, rfl, ht s.cpu, hl s.cpu⟩

/-- `__trap_handler` resets `prev` when it is done. -/
theorem trapLoop_prevNull (env : SysEnv) (fuel : Nat) (ir : Insn) {s s' : Sys} {u : Unit}
    (h : trapLoop env fuel ir s = some (u, s')) : s'.prevNull = true := by
  induction fuel generalizing ir s with
  | zero => cases h
  | succ fuel ih =>
    unfold trapLoop at h
    obtain ⟨s0, s1, h0, h⟩ := bind_eq_some.mp h
    split at h
    · obtain ⟨insn, s2, -, h⟩ := bind_eq_some.mp h
      split at h
      · obtain ⟨-, rfl⟩ := Prod.mk.inj (Option.some.inj h)
        rfl
      · obtain ⟨ir', s3, -, h⟩ := bind_eq_some.mp h
        obtain ⟨-, s4, -, h⟩ := bind_eq_some.mp h
        obtain ⟨s5, s6, -, h⟩ := bind_eq_some.mp h
        obtain ⟨ctl, s7, -, h⟩ := bind_eq_some.mp h
        cases ctl with
        | ret ok => exact ih _ h
        | signal => exact ih _ h
        | next cycle pc => cases h
        | enter r cycle pc => cases h
        | lookup cycle pc => cases h
    · obtain ⟨-, rfl⟩ := Prod.mk.inj (Option.some.inj h)
      rfl

section Quiet

variable {loop : SysM Unit} (hloop : Within Quiet loop)

include hloop

theorem trapHandlerWith_quiet : Within Quiet (trapHandlerWith loop) := by
  have hvec : ∀ tvec cause, Within Quiet (vectorThen loop tvec cause) := fun tvec cause => by
    refine .bind (modifyCpu_quiet (fun s => ?_) fun s => ?_) fun _ =>
      .get_bind fun _ => .ite hloop (.pure _)
    all_goals
      unfold vectorTo
      split_ifs <;> rfl
  refine .get_bind fun s => .ite ?_ ?_
  · exact .bind (.modify fun _ => .inr ⟨rfl, rfl, rfl, rfl⟩) fun _ =>
      .ite (.modify fun _ => .inr ⟨rfl, rfl, rfl, rfl⟩) (hvec _ _)
  · exact .bind (modifyCpu_quiet (fun _ => rfl) fun _ => rfl) fun _ =>
      .ite (.modify fun _ => .inr ⟨rfl, rfl, rfl, rfl⟩) (hvec _ _)

theorem raiseWith_quiet (cause : SysCause) (tval : Word) :
    Within Quiet (raiseWith loop cause tval) :=
  .bind (.modify fun _ => .inr ⟨rfl, rfl, rfl, rfl⟩) fun _ => trapHandlerWith_quiet hloop

end Quiet

theorem trapLoop_quiet (env : SysEnv) (fuel : Nat) (ir : Insn) : Within Quiet (trapLoop env fuel ir) :=
  fun _ _ _ h => .inl (trapLoop_prevNull env fuel ir h)

theorem sysRaise_quiet (env : SysEnv) (fuel : Nat) (cause : SysCause) (tval : Word) :
    Within Quiet (sysRaise env fuel cause tval) :=
  raiseWith_quiet (trapLoop_quiet env fuel {}) cause tval

section Fetch

variable {env : SysEnv} {raise : Raise} (hraise : ∀ cause tval, Within Quiet (raise cause tval))

include hraise

theorem mmuFaultCheck_quiet (access : Access) (walk : Option (Word × Nat)) (vaddr : Word) :
    Within Quiet (mmuFaultCheck raise access walk vaddr) := by
  refine .get_bind fun s => ?_
  rcases walk with _ | ⟨pteAddr, level⟩
  · exact .bind (hraise _ _) fun _ => .pure _
  · exact .ite (.bind (hraise _ _) fun _ => .pure _) (.pure _)

omit hraise in
theorem checkPendingSignal_quiet : Within Quiet (checkPendingSignal env) :=
  .ite (.pure _) (.bind (.modify fun _ => .inr ⟨rfl, rfl, rfl, rfl⟩) fun _ => .get_bind fun _ => .pure _)

theorem ifetchWalk_quiet (vaddr : Word) : Within Quiet (ifetchWalk env raise vaddr) := by
  refine .get_bind fun s => .bind (mmuFaultCheck_quiet hraise _ _ _) fun ok => .ite (.pure _) ?_
  refine .bind checkPendingSignal_quiet fun gaveUp => .ite (.pure _) ?_
  refine .get_bind fun s => .bind (.ite (.pure _) (mmuFaultCheck_quiet hraise .fetch _ _)) fun ok => ?_
  exact .ite (.pure _) (.bind (.modify fun _ => .inr ⟨rfl, rfl, rfl, rfl⟩) fun _ => .pure _)

theorem mmuIfetch_quiet (vaddr : Word) : Within Quiet (mmuIfetch env raise vaddr) := by
  refine .get_bind fun s => .ite (.pure _) (.ite (.pure _) ?_)
  refine .bind (.get_bind fun _ => .pure _) fun hit => ?_
  rcases hit with _ | paddr
  · refine .bind (ifetchWalk_quiet hraise vaddr) fun walk => ?_
    rcases walk with _ | ⟨pteAddr, level⟩
    · exact .pure _
    · refine .bind (modifyCpu_quiet (fun _ => rfl) fun _ => rfl) fun _ => .get_bind fun _ => ?_
      exact .bind (.modify fun _ => .inr ⟨rfl, rfl, rfl, rfl⟩) fun _ => .get_bind fun _ => .pure _
  · exact .get_bind fun _ => .pure _

theorem sysTranslateLoop_quiet (pEnd : Word) (n : Nat) (pc : Word) :
    Within Quiet (sysTranslateLoop env raise pEnd n pc) := by
  induction n generalizing pc with
  | zero => exact .failure
  | succ n ih =>
    refine .bind (mmuIfetch_quiet hraise pc) fun insn => .ite ?_ ?_
    · refine .get_bind fun _ => .ite ?_ (.pure _)
      exact .bind (.modify fun _ => .inr ⟨rfl, rfl, rfl, rfl⟩) fun _ => .pure _
    · split
      · exact .failure
      · exact .bind (modifyCpu_quiet (fun _ => rfl) fun _ => rfl) fun _ =>
          .bind (hraise _ _) fun _ => .pure _
      · exact .ite (.pure _) (.ite (.pure _) (.bind (ih _) fun _ => .pure _))

theorem sysBlockTranslate_quiet (n : Nat) : Within Quiet (sysBlockTranslate env raise n) := by
  induction n with
  | zero => exact .failure
  | succ n ih =>
    refine .get_bind fun s => .bind (sysTranslateLoop_quiet hraise _ _ _) fun r => ?_
    exact .ite ih (.pure _)

theorem rvCheckInterrupt_quiet : Within Quiet (rvCheckInterrupt env raise) := by
  refine .bind (modifyCpu_quiet (fun _ => rfl) fun _ => rfl) fun _ =>
    .bind (.modify fun s => .inr ⟨rfl, rfl, rfl, rfl⟩) fun _ => .get_bind fun s => ?_
  refine .ite ?_ (.pure _)
  split
  · exact hraise _ _
  · exact .pure _

end Fetch

/-! ## The slot the linker fills -/

/-- The slot of the tail that `rv_step` would link is empty. -/
def Block.freeSlot (b : Block) (isBranchTaken : Bool) : Bool :=
  if b.pageTerminated then b.links.taken.isNone
  else if !b.tailOp.isUnconditionalBranch then
    if isBranchTaken then b.links.taken.isNone else b.links.untaken.isNone
  else b.tailOp.isDirectBranch && b.links.taken.isNone

theorem Block.link_of_not_freeSlot {b : Block} {taken : Bool} (h : b.freeSlot taken = false) (r : Ref) :
    b.link taken r = b := by
  have hor : ∀ {o : Option Ref}, o.isNone = false → o.or (some r) = o := fun {o} ho => by
    cases o with
    | none => cases ho
    | some q => rfl
  have htaken : b.links.taken.isNone = false →
      { b with links := { b.links with taken := b.links.taken.or (some r) } } = b := fun ht => by
    rw [hor ht]
  have huntaken : b.links.untaken.isNone = false →
      { b with links := { b.links with untaken := b.links.untaken.or (some r) } } = b := fun ht => by
    rw [hor ht]
  unfold Block.freeSlot at h
  unfold Block.link
  split_ifs at h ⊢ with hpage hcond hdir htk
  · exact htaken h
  · exact htaken h
  · exact huntaken h
  · exact htaken (by simpa [htk] using h)
  · rfl

theorem SysBlock.link_of_not_freeSlot {b : SysBlock} {taken : Bool} (h : b.freeSlot taken = false)
    (r : Ref) : b.link taken r = b := by
  simp only [SysBlock.link, Block.link_of_not_freeSlot h]

/-- Where a branch at the end of a block goes when it is taken. -/
def Insn.branchTarget (ir : Insn) : Option Word :=
  match ir.opcode with
  | .jal | .cj | .cjal | .beq | .bne | .blt | .bge | .bltu | .bgeu | .cbeqz | .cbnez =>
    some (ir.pc + ir.imm)
  | .fuse12 => some (ir.pc + (4 + ir.imm2))
  | _ => none

/-- The target or the fallthrough address of the tail of a block. -/
def SysBlock.OwnAddr (b : SysBlock) (a : Word) : Prop := a = b.pcEnd ∨ b.tail.branchTarget = some a

/-- Every link of a tail names a block at the tail's own target or fallthrough address. -/
def BlockMap.LinksNamed (e : BlockMap SysBlock) : Prop :=
  ∀ r b, e.block r = some b → ∀ t, b.links.taken = some t ∨ b.links.untaken = some t →
    ∃ b', e.block t = some b' ∧ b.OwnAddr b'.pcStart

/-! ## Lazy fusion and the tail -/

section Tail

variable {γ : Type} {g : Insn → γ} {v : γ}

theorem getLast?_map_const {irs : List Insn} (hne : irs ≠ []) (h : ∀ ir ∈ irs, g ir = v) :
    irs.getLast?.map g = some v := by
  rw [List.getLast?_eq_some_getLast hne, Option.map_some, h _ (List.getLast_mem hne)]

/-- What is done to the pieces of an IR list shows in its last node only as far as it shows in the last
node of each piece. -/
theorem getLast?_flatMap_map {f : Seg → List Seg}
    (hf : ∀ seg, ((f seg).flatMap Seg.irs).getLast?.map g = seg.irs.getLast?.map g) (segs : List Seg) :
    ((segs.flatMap f).flatMap Seg.irs).getLast?.map g = (segs.flatMap Seg.irs).getLast?.map g := by
  induction segs with
  | nil => rfl
  | cons seg segs ih =>
    simp only [List.flatMap_cons, List.flatMap_append, List.getLast?_append, Option.map_or, ih, hf]

theorem flatMap_irs_node (irs : List Insn) : (irs.map Seg.node).flatMap Seg.irs = irs := by
  induction irs with
  | nil => rfl
  | cons ir irs ih => simpa [Seg.irs] using ih

/-- A fused run is followed by what is left of it. -/
theorem Seg.tryFuse_last
    (hg : ∀ ir, ir.opcode = .lw ∨ ir.opcode = .sw ∨ ir.opcode = .fuse3 ∨ ir.opcode = .fuse4 → g ir = v)
    (env : SysEnv) (alloc : Word → Bool) (x : Reg → Word) (seg : Seg) :
    ((seg.tryFuse env alloc x).flatMap Seg.irs).getLast?.map g = seg.irs.getLast?.map g := by
  rcases seg with ir | c
  · rfl
  · have hc : ∀ ir ∈ c.irs, g ir = v := fun ir hir => hg ir <| by
      rw [c.ops ir hir]
      cases c.isLoad
      · exact .inr (.inl rfl)
      · exact .inl rfl
    have hop : (if c.isLoad then Opcode.fuse4 else .fuse3) = .fuse3 ∨
        (if c.isLoad then Opcode.fuse4 else .fuse3) = .fuse4 := by
      cases c.isLoad
      · exact .inl rfl
      · exact .inr rfl
    unfold Seg.tryFuse
    simp only
    generalize (if c.isLoad then Opcode.fuse4 else .fuse3) = op at hop ⊢
    split
    · split
      · simp [Seg.irs]
      · rename_i ir rest hirs
        rw [hirs] at hc
        split
        · simp [Seg.irs]
        · rename_i hfused
          rw [List.flatMap_cons, flatMap_irs_node, show Seg.irs (.candidate c) = ir :: rest from hirs,
            getLast?_map_const (List.cons_ne_nil ir rest) hc]
          refine getLast?_map_const (List.cons_ne_nil _ _) fun ir' hir' => ?_
          rcases List.mem_cons.mp hir' with rfl | hir'
          · refine hg _ ?_
            unfold tryFuseSequence at hfused ⊢
            split_ifs at hfused ⊢ <;> simp_all
          · exact hc ir' (List.mem_cons_of_mem ir (List.mem_of_mem_drop hir'))
    · rw [flatMap_irs_node]
      rfl

/-- Lazy fusion keeps every property of the tail that does not tell memory accesses apart. -/
theorem SysBlock.fuseLazily_tail
    (hg : ∀ ir, ir.opcode = .lw ∨ ir.opcode = .sw ∨ ir.opcode = .fuse3 ∨ ir.opcode = .fuse4 → g ir = v)
    (env : SysEnv) (alloc : Word → Bool) (s : Cpu) (b : SysBlock) :
    g (b.fuseLazily env alloc s).tail = g b.tail := by
  have hlast : (b.fuseLazily env alloc s).irs.getLast?.map g = b.irs.getLast?.map g := by
    rw [b.irs_eq]
    show ((tryLazyFusion env alloc s b.segs).flatMap Seg.irs).getLast?.map g = _
    unfold tryLazyFusion
    split
    · exact getLast?_flatMap_map (fun seg => by rw [flatMap_irs_node]) b.segs
    · exact getLast?_flatMap_map (Seg.tryFuse_last hg env alloc s.X) b.segs
  have htail : ∀ irs : List Insn, g (irs.getLastD {}) = (irs.getLast?.map g).getD (g {}) := fun irs => by
    rw [List.getLastD_eq_getLast?]
    cases irs.getLast? <;> rfl
  unfold SysBlock.tail
  rw [htail, htail, hlast]

end Tail

/-- The block is as it was, up to its branch history and lazy fusion. -/
structure SysBlock.Same (b b' : SysBlock) : Prop where
  links : b'.links = b.links
  pcStart : b'.pcStart = b.pcStart
  pcEnd : b'.pcEnd = b.pcEnd
  target : b'.tail.branchTarget = b.tail.branchTarget

theorem SysBlock.Same.refl (b : SysBlock) : b.Same b := ⟨rfl, rfl, rfl, rfl⟩

theorem SysBlock.Same.trans {b b' b'' : SysBlock} (h : b.Same b') (h' : b'.Same b'') : b.Same b'' :=
  ⟨h'.links.trans h.links, h'.pcStart.trans h.pcStart, h'.pcEnd.trans h.pcEnd,
    h'.target.trans h.target⟩

theorem SysBlock.Same.ownAddr {b b' : SysBlock} (h : b.Same b') (a : Word) :
    b'.OwnAddr a ↔ b.OwnAddr a := by
  unfold SysBlock.OwnAddr
  rw [h.pcEnd, h.target]

theorem SysBlock.fuseLazily_same (env : SysEnv) (alloc : Word → Bool) (s : Cpu) (b : SysBlock) :
    b.Same (b.fuseLazily env alloc s) := by
  refine ⟨rfl, rfl, rfl, fuseLazily_tail (g := Insn.branchTarget) (v := none) ?_ env alloc s b⟩
  intro ir hir
  unfold Insn.branchTarget
  rcases hir with h | h | h | h <;> rw [h]

theorem SysBlock.fuseLazily_freeSlot (env : SysEnv) (alloc : Word → Bool) (s : Cpu) (b : SysBlock)
    (taken : Bool) : (b.fuseLazily env alloc s).freeSlot taken = b.freeSlot taken := by
  have hkind := fuseLazily_tail
    (g := fun ir => (ir.opcode.isUnconditionalBranch, ir.opcode.isDirectBranch)) (v := (false, false))
    (fun ir hir => by rcases hir with h | h | h | h <;> rw [h] <;> rfl) env alloc s b
  obtain ⟨huncond, hdirect⟩ := Prod.mk.inj hkind
  have hu : (b.fuseLazily env alloc s).tailOp.isUnconditionalBranch = b.tailOp.isUnconditionalBranch :=
    huncond
  have hd : (b.fuseLazily env alloc s).tailOp.isDirectBranch = b.tailOp.isDirectBranch := hdirect
  unfold Block.freeSlot
  rw [hu, hd]
  rfl

/-! ## Block maps in which no link has been installed -/

namespace BlockMap

variable {e0 e : BlockMap SysBlock} {extC : Bool}

/-- Names from `fresh` on are not used anywhere. -/
structure Bounded (e : BlockMap SysBlock) : Prop where
  block : ∀ r, e.fresh ≤ r → e.block r = none
  index : ∀ pc r, e.index pc = some r → r < e.fresh
  l1 : ∀ i r, (e.l1 i).2 = some r → r < e.fresh
  prev : ∀ r, e.prev = some r → r < e.fresh

theorem bounded_empty : Bounded {} where
  block _ _ := rfl
  index _ _ h := nomatch h
  l1 _ _ h := nomatch h
  prev _ h := nomatch h

theorem Bounded.lt (h : e.Bounded) {r : Ref} {b : SysBlock} (hb : e.block r = some b) : r < e.fresh := by
  by_contra hlt
  rw [h.block r (Nat.le_of_not_lt hlt)] at hb
  cases hb

theorem Bounded.setPrev (h : e.Bounded) {p : Option Ref} (hp : ∀ r, p = some r → r < e.fresh) :
    Bounded { e with prev := p } := ⟨h.block, h.index, h.l1, hp⟩

theorem Bounded.noPrev (h : e.Bounded) : Bounded { e with prev := none } :=
  h.setPrev fun _ hr => nomatch hr

theorem Bounded.clear (h : e.Bounded) : e.blockMapClear.Bounded where
  block _ _ := rfl
  index _ _ hr := nomatch hr
  l1 _ _ hr := nomatch hr
  prev := h.prev

theorem Bounded.insert (h : e.Bounded) (pc : Word) (b : SysBlock) :
    (e.blockInsert extC pc b).Bounded where
  block r hr := by
    have hlt : e.fresh < r := hr
    simp only [blockInsert, Function.update_of_ne hlt.ne']
    exact h.block r hlt.le
  index pc' r hr := by
    show r < e.fresh + 1
    simp only [blockInsert] at hr
    split at hr
    · exact Nat.lt_succ_of_lt (h.index pc' r hr)
    · by_cases hpc : pc' = pc
      · subst hpc
        rw [Function.update_self] at hr
        obtain rfl := Option.some.inj hr
        exact Nat.lt_succ_self _
      · rw [Function.update_of_ne hpc] at hr
        exact Nat.lt_succ_of_lt (h.index pc' r hr)
  l1 i r hr := by
    show r < e.fresh + 1
    simp only [blockInsert] at hr
    by_cases hi : i = l1Index extC pc
    · subst hi
      rw [Function.update_self] at hr
      obtain rfl := Option.some.inj hr
      exact Nat.lt_succ_self _
    · rw [Function.update_of_ne hi] at hr
      exact Nat.lt_succ_of_lt (h.l1 i r hr)
  prev r hr := Nat.lt_succ_of_lt (h.prev r hr)

theorem Bounded.modify (h : e.Bounded) (q : Ref) (f : SysBlock → SysBlock) : (e.modify q f).Bounded where
  block r hr := by
    have hnone := h.block r hr
    by_cases hrq : r = q
    · subst hrq
      simp [BlockMap.modify, hnone]
    · simpa [BlockMap.modify, Function.update_of_ne hrq] using hnone
  index := h.index
  l1 := h.l1
  prev := h.prev

/-- `block_lookup_or_find` changes the L1 cache only, and what it finds has a name in use. -/
theorem Bounded.lookup (h : e.Bounded) (extC : Bool) (pc : Word) :
    (∃ l1, (e.blockLookupOrFind extC pc).2 = { e with l1 } ∧ Bounded { e with l1 }) ∧
      ∀ r, (e.blockLookupOrFind extC pc).1 = some r → r < e.fresh := by
  unfold blockLookupOrFind
  simp only
  split
  · exact ⟨⟨e.l1, rfl, h⟩, fun r hr => h.l1 _ r hr⟩
  · rcases hidx : e.index pc with _ | q
    · exact ⟨⟨e.l1, rfl, h⟩, fun r hr => nomatch hr⟩
    · have hq := h.index pc q hidx
      refine ⟨⟨_, rfl, h.block, h.index, fun i r hr => ?_, h.prev⟩, fun r hr => ?_⟩
      · by_cases hi : i = l1Index extC pc
        · subst hi
          simp only [Function.update_self, Option.some.injEq] at hr
          exact hr ▸ hq
        · simp only [Function.update_of_ne hi] at hr
          exact h.l1 i r hr
      · exact Option.some.inj hr ▸ hq

/-- Since `e0` no link has been installed: either the blocks of `e0` are all there, or none is. -/
structure Kept (e0 e : BlockMap SysBlock) : Prop where
  fresh : e0.fresh ≤ e.fresh
  old : (∀ r < e0.fresh, Option.Rel SysBlock.Same (e0.block r) (e.block r)) ∨
    ∀ r < e0.fresh, e.block r = none
  new : ∀ r b, e0.fresh ≤ r → e.block r = some b → b.links = {}

theorem Kept.refl (h : e.Bounded) : Kept e e where
  fresh := le_refl _
  old := .inl fun r _ => by
    cases e.block r with
    | none => exact .none
    | some b => exact .some (.refl b)
  new r b hr hb := by
    rw [h.block r hr] at hb
    cases hb

theorem Kept.of_eq {e' : BlockMap SysBlock} (h : Kept e0 e) (hblock : e'.block = e.block)
    (hfresh : e'.fresh = e.fresh) : Kept e0 e' where
  fresh := hfresh ▸ h.fresh
  old := hblock ▸ h.old
  new := hblock ▸ h.new

theorem Kept.clear (h : Kept e0 e) : Kept e0 e.blockMapClear where
  fresh := h.fresh
  old := .inr fun _ _ => rfl
  new _ _ _ hb := nomatch hb

theorem Kept.insert (h : Kept e0 e) (pc : Word) {b : SysBlock} (hb : b.links = {}) :
    Kept e0 (e.blockInsert extC pc b) where
  fresh := Nat.le_succ_of_le h.fresh
  old := by
    have hne : ∀ r < e0.fresh, (e.blockInsert extC pc b).block r = e.block r := fun r hr =>
      Function.update_of_ne (hr.trans_le h.fresh).ne _ _
    rcases h.old with hold | hold
    · exact .inl fun r hr => by rw [hne r hr]; exact hold r hr
    · exact .inr fun r hr => by rw [hne r hr]; exact hold r hr
  new r b' hr hb' := by
    by_cases hrf : r = e.fresh
    · subst hrf
      simp only [blockInsert, Function.update_self, Option.some.injEq] at hb'
      exact hb' ▸ hb
    · simp only [blockInsert, Function.update_of_ne hrf] at hb'
      exact h.new r b' hr hb'

theorem Kept.modify (h : Kept e0 e) {q : Ref} {f : SysBlock → SysBlock}
    (hf : ∀ b, e.block q = some b → b.Same (f b)) : Kept e0 (e.modify q f) where
  fresh := h.fresh
  old := by
    rcases h.old with hold | hold
    · refine .inl fun r hr => ?_
      have hrel := hold r hr
      by_cases hrq : r = q
      · subst hrq
        rw [show (e.modify r f).block r = (e.block r).map f from Function.update_self ..]
        rcases hb : e.block r with _ | b
        · rw [hb] at hrel
          exact hrel
        · rw [hb] at hrel
          rcases hb0 : e0.block r with _ | b0
          · rw [hb0] at hrel
            cases hrel
          · rw [hb0] at hrel
            cases hrel with
            | some hsame => exact .some (hsame.trans (hf b hb))
      · rw [show (e.modify q f).block r = e.block r from Function.update_of_ne hrq ..]
        exact hrel
    · refine .inr fun r hr => ?_
      by_cases hrq : r = q
      · subst hrq
        simp [BlockMap.modify, hold r hr]
      · simpa [BlockMap.modify, Function.update_of_ne hrq] using hold r hr
  new r b hr hb := by
    by_cases hrq : r = q
    · subst hrq
      simp only [BlockMap.modify, Function.update_self, Option.map_eq_some_iff] at hb
      obtain ⟨b', hb', rfl⟩ := hb
      rw [(hf b' hb').links]
      exact h.new r b' hr hb'
    · simp only [BlockMap.modify, Function.update_of_ne hrq] at hb
      exact h.new r b hr hb

/-- What a link of a surviving block names is as it was. -/
theorem Kept.links (h : Kept e0 e) (h0 : e0.Bounded) {r : Ref} {b b' : SysBlock}
    (hb : e0.block r = some b) (hb' : e.block r = some b') : b'.links = b.links := by
  rcases h.old with hold | hold
  · have hrel := hold r (h0.lt hb)
    rw [hb, hb'] at hrel
    cases hrel with
    | some hsame => exact hsame.links
  · rw [hold r (h0.lt hb)] at hb'
    cases hb'

theorem Kept.linksNamed (h : Kept e0 e) (h0 : e0.Bounded) (hnamed : e0.LinksNamed) : e.LinksNamed := by
  intro r b hb t ht
  by_cases hr : r < e0.fresh
  · rcases h.old with hold | hold
    · have hrel := hold r hr
      rw [hb] at hrel
      obtain ⟨b0, hb0, hsame⟩ : ∃ b0, e0.block r = some b0 ∧ b0.Same b := by
        rcases hb0 : e0.block r with _ | b0
        · rw [hb0] at hrel
          cases hrel
        · rw [hb0] at hrel
          cases hrel with
          | some hsame => exact ⟨b0, rfl, hsame⟩
      rw [hsame.links] at ht
      obtain ⟨bt, hbt, haddr⟩ := hnamed r b0 hb0 t ht
      have hrelt := hold t (h0.lt hbt)
      rw [hbt] at hrelt
      rcases hbt' : e.block t with _ | bt'
      · rw [hbt'] at hrelt
        cases hrelt
      · rw [hbt'] at hrelt
        cases hrelt with
        | some hsamet =>
          refine ⟨bt', rfl, ?_⟩
          rw [hsame.ownAddr, hsamet.pcStart]
          exact haddr
    · rw [hold r hr] at hb
      cases hb
  · rw [h.new r b (Nat.le_of_not_lt hr) hb] at ht
    rcases ht with ht | ht
    · cases ht
    · cases ht

end BlockMap

/-! ## Names in use -/

namespace SysConf

variable {env : SysEnv} {host : SysHost} {c0 c c' : SysConf}

@[simp] theorem settle_loc (c : SysConf) (s : Sys) : (c.settle s).loc = c.loc := rfl

@[simp] theorem settle_fresh (c : SysConf) (s : Sys) : (c.settle s).eng.fresh = c.eng.fresh := by
  unfold settle
  dsimp only
  split_ifs <;> rfl

theorem settle_bounded (h : c.eng.Bounded) (s : Sys) : (c.settle s).eng.Bounded := by
  have he : (if s.blockMapCleared then c.eng.blockMapClear else c.eng).Bounded := by
    split
    · exact h.clear
    · exact h
  unfold settle
  dsimp only
  split
  · exact he.noPrev
  · exact he

theorem settle_kept (h : BlockMap.Kept c0.eng c.eng) (s : Sys) :
    BlockMap.Kept c0.eng (c.settle s).eng := by
  have he : BlockMap.Kept c0.eng (if s.blockMapCleared then c.eng.blockMapClear else c.eng) := by
    split
    · exact h.clear
    · exact h
  unfold settle
  dsimp only
  split
  · exact he.of_eq rfl rfl
  · exact he

/-- The names a configuration uses have been given out. -/
structure Bounded (c : SysConf) : Prop where
  eng : c.eng.Bounded
  disp : ∀ disp cur rest cycle pc, c.loc = .run disp cur rest cycle pc → disp < c.eng.fresh

theorem handlerReturned_bounded (h : c.eng.Bounded) {disp : Ref} (hdisp : disp < c.eng.fresh) (ok : Bool) :
    (c.handlerReturned disp ok).Bounded := by
  unfold handlerReturned
  cases ok with
  | false => exact ⟨h.noPrev, fun _ _ _ _ _ hloc => nomatch hloc⟩
  | true =>
    exact ⟨h.setPrev fun r hr => Option.some.inj hr ▸ hdisp, fun _ _ _ _ _ hloc => nomatch hloc⟩

theorem dead_bounded (h : c.eng.Bounded) : Bounded { c with loc := .dead } :=
  ⟨h, fun _ _ _ _ _ hloc => nomatch hloc⟩

theorem enter_bounded (h : c.eng.Bounded) {disp : Ref} (hdisp : disp < c.eng.fresh) (r : Ref)
    (cycle : BitVec 64) (pc : Word) : (c.enter disp r cycle pc).Bounded := by
  unfold enter
  split
  · refine ⟨h, fun _ _ _ _ _ hloc => ?_⟩
    cases hloc
    exact hdisp
  · exact dead_bounded h

theorem lookupBranch_bounded (h : c.eng.Bounded) {disp : Ref} (hdisp : disp < c.eng.fresh) (cur : Ref)
    (ir : Insn) (cycle : BitVec 64) (pc : Word) : (c.lookupBranch disp cur ir cycle pc).Bounded := by
  unfold lookupBranch
  dsimp only
  split
  · exact enter_bounded h hdisp _ _ _
  · exact enter_bounded (c := { c with eng := _ }) (h.modify _ _) hdisp _ _ _
  · exact handlerReturned_bounded (by exact h) (by exact hdisp) true

theorem stepRun_bounded (h : c.eng.Bounded) {disp : Ref} (hdisp : disp < c.eng.fresh) (cur : Ref)
    (rest : List Insn) (cycle : BitVec 64) (pc : Word) :
    (c.stepRun env host disp cur rest cycle pc).1.Bounded := by
  unfold stepRun
  split
  · exact dead_bounded h
  · dsimp only
    split
    · exact dead_bounded h
    · rename_i ctl s _
      have h' := settle_bounded h s
      have hdisp' : disp < (c.settle s).eng.fresh := by rwa [settle_fresh]
      cases ctl with
      | signal => exact handlerReturned_bounded h' hdisp' true
      | ret ok => exact handlerReturned_bounded h' hdisp' ok
      | next cycle pc =>
        dsimp only
        split
        · exact dead_bounded h'
        · refine ⟨h', fun _ _ _ _ _ hloc => ?_⟩
          cases hloc
          exact hdisp'
      | enter r cycle pc =>
        dsimp only
        split
        · exact dead_bounded h'
        · exact enter_bounded h' hdisp' _ _ _
      | lookup cycle pc =>
        dsimp only
        split
        · exact dead_bounded h'
        · exact lookupBranch_bounded h' hdisp' _ _ _ _

theorem refreshPrev_spec (h : c.eng.Bounded) {e : BlockMap SysBlock} (he : c.refreshPrev env = some e) :
    e.Bounded ∧ e.block = c.eng.block ∧ e.fresh = c.eng.fresh ∧ (c.eng.prev = none → e.prev = none) := by
  unfold refreshPrev at he
  split at he
  · rename_i hprev
    obtain rfl := Option.some.inj he
    exact ⟨h, rfl, rfl, fun _ => hprev⟩
  · rename_i p hprev
    split at he
    · cases he
    · split at he
      · obtain rfl := Option.some.inj he
        exact ⟨h, rfl, rfl, fun hnone => hnone⟩
      · obtain ⟨⟨l1, hl1, hb⟩, hfound⟩ := h.lookup env.extC c.sys.cpu.lastPc
        obtain rfl := Option.some.inj he
        rw [hl1]
        exact ⟨hb.setPrev hfound, rfl, rfl, fun hnone => by simp [hprev] at hnone⟩

/-- `block_find_or_translate` in terms of what it does to the block map. -/
theorem findOrTranslate_bounded (h : c.eng.Bounded) {o : Option Ref}
    (hfind : findOrTranslate env host c = some (o, c')) :
    c'.eng.Bounded ∧ ∀ r, o = some r → r < c'.eng.fresh := by
  obtain ⟨⟨l1, hl1, hb⟩, hfound⟩ := h.lookup env.extC c.sys.cpu.PC
  unfold findOrTranslate at hfind
  rcases hlook : c.eng.blockLookupOrFind env.extC c.sys.cpu.PC with ⟨_ | r, e⟩
  · rw [hlook] at hl1 hfind
    obtain rfl : e = _ := hl1
    dsimp only at hfind
    generalize he : (if mapFull _ = true then _ else _ : BlockMap SysBlock) = e' at hfind
    have hb' : e'.Bounded := by
      subst he
      split
      · exact hb.clear.noPrev
      · exact hb
    split at hfind
    · obtain ⟨rfl, rfl⟩ := Prod.mk.inj (Option.some.inj hfind)
      exact ⟨hb', fun r hr => nomatch hr⟩
    · split at hfind
      · cases hfind
      · rename_i d s _
        have hs := settle_bounded (c := { c with eng := e' }) hb' s
        split at hfind
        · obtain ⟨rfl, rfl⟩ := Prod.mk.inj (Option.some.inj hfind)
          exact ⟨hs, fun r hr => nomatch hr⟩
        · split at hfind
          · cases hfind
          · obtain ⟨rfl, rfl⟩ := Prod.mk.inj (Option.some.inj hfind)
            exact ⟨hs.insert _ _, fun r hr => Option.some.inj hr ▸ Nat.lt_succ_self _⟩
  · rw [hlook] at hl1 hfound hfind
    obtain rfl : e = _ := hl1
    obtain ⟨rfl, rfl⟩ := Prod.mk.inj (Option.some.inj hfind)
    have hr := hfound r rfl
    dsimp only
    split
    · exact ⟨hb.modify _ _, fun q hq => Option.some.inj hq ▸ hr⟩
    · exact ⟨hb, fun q hq => Option.some.inj hq ▸ hr⟩

theorem checkInterrupt_bounded (h : c.eng.Bounded) (hc : c.checkInterrupt env host = some c') :
    c'.eng.Bounded := by
  unfold checkInterrupt at hc
  split at hc
  · exact Option.some.inj hc ▸ h
  · obtain ⟨r, -, rfl⟩ := Option.map_eq_some_iff.mp hc
    exact settle_bounded h _

theorem noBlock_bounded (h : c.eng.Bounded) : (c.noBlock env host).Bounded := by
  unfold noBlock
  split
  · split
    · exact dead_bounded h
    · exact ⟨(settle_bounded h _).noPrev, fun _ _ _ _ _ hloc => nomatch hloc⟩
  · exact ⟨h, fun _ _ _ _ _ hloc => nomatch hloc⟩

theorem linkAndRun_bounded (h : c.eng.Bounded) {r : Ref} (hr : r < c.eng.fresh) :
    (c.linkAndRun r).Bounded := by
  unfold linkAndRun
  split
  · exact dead_bounded h
  · dsimp only
    split
    · refine ⟨h.modify _ _, fun _ _ _ _ _ hloc => ?_⟩
      cases hloc
      exact hr
    · refine ⟨h, fun _ _ _ _ _ hloc => ?_⟩
      cases hloc
      exact hr

theorem dispatch_cases (env : SysEnv) (host : SysHost) (c : SysConf) :
    c.dispatch env host = { c with loc := .dead } ∨
    ∃ c1 e o c2, c.checkInterrupt env host = some c1 ∧ c1.refreshPrev env = some e ∧
      findOrTranslate env host { c1 with eng := e } = some (o, c2) ∧
      c.dispatch env host = match o with
        | none => c2.noBlock env host
        | some r => c2.linkAndRun r := by
  unfold dispatch
  rcases hfound : c.nextBlock env host with _ | ⟨o, c2⟩
  · exact .inl rfl
  · obtain ⟨c1, hc1, hfound⟩ := Option.bind_eq_some_iff.mp hfound
    obtain ⟨e, he, hfound⟩ := Option.bind_eq_some_iff.mp hfound
    refine .inr ⟨c1, e, o, c2, hc1, he, hfound, ?_⟩
    cases o <;> rfl

theorem step_bounded (env : SysEnv) (host : SysHost) (h : c.Bounded) : (c.step env host).1.Bounded := by
  unfold step
  rcases hloc : c.loc with _ | _ | ⟨disp, cur, rest, cycle, pc⟩ | _
  · exact ⟨h.eng, fun _ _ _ _ _ hloc => nomatch hloc⟩
  · dsimp only
    split
    · rcases dispatch_cases env host c with hd | ⟨c1, e, o, c2, hc1, he, hfind, hd⟩
      · rw [hd]
        exact dead_bounded h.eng
      · have he' := (refreshPrev_spec (checkInterrupt_bounded h.eng hc1) he).1
        obtain ⟨hb, ho⟩ := findOrTranslate_bounded (c := { c1 with eng := e }) he' hfind
        rw [hd]
        cases o with
        | none => exact noBlock_bounded hb
        | some r => exact linkAndRun_bounded hb (ho r rfl)
    · exact ⟨h.eng, fun _ _ _ _ _ hloc => nomatch hloc⟩
  · exact stepRun_bounded h.eng (h.disp _ _ _ _ _ hloc) _ _ _ _
  · exact ⟨h.eng, fun _ _ _ _ _ hloc' => by simp [hloc] at hloc'⟩

/-- In every state that a machine reaches, names are used only once they have been given out. -/
theorem run_bounded (env : SysEnv) (host : SysHost) (s : Sys) (n : Nat) :
    (run env host { sys := s } n).Bounded := by
  induction n with
  | zero => exact ⟨BlockMap.bounded_empty, fun _ _ _ _ _ hloc => nomatch hloc⟩
  | succ n ih => exact step_bounded env host ih

/-! ## The iteration after an early return -/

/-- The block that the next iteration takes for the previous one. -/
def nextPrev (env : SysEnv) (c : SysConf) : Option SysBlock := do
  let e ← c.refreshPrev env
  let p ← e.prev
  e.block p

def NoFreeSlot (env : SysEnv) (c : SysConf) : Prop :=
  ∀ b, c.nextPrev env = some b → b.freeSlot c.sys.cpu.isBranchTaken = false

theorem noFreeSlot_of_map {env : SysEnv} {c : SysConf}
    (h : (c.nextPrev env).map (fun b => b.freeSlot c.sys.cpu.isBranchTaken) = some false) :
    c.NoFreeSlot env := by
  intro b hb
  rw [hb] at h
  exact Option.some.inj h

/-- `rv_step` is between two blocks. -/
def between (c : SysConf) : Bool :=
  match c.loc with
  | .left | .head => true
  | .run .. | .dead => false

/-- Since `c0` no block has run and no link has been installed; unless `prev` has been reset, the
linker is as it was in `c0`. -/
structure Waiting (c0 c : SysConf) : Prop where
  kept : BlockMap.Kept c0.eng c.eng
  bounded : c.eng.Bounded
  notCleared : c.sys.blockMapCleared = false
  notNull : c.sys.prevNull = false
  prev : c.eng.prev = none ∨
    (c.eng = c0.eng ∧ c.sys.cpu.isBranchTaken = c0.sys.cpu.isBranchTaken ∧
      c.sys.cpu.lastPc = c0.sys.cpu.lastPc)

/-- The same, with what the linker is about to do: if it links, it has no slot to fill. -/
structure Ready (c0 c : SysConf) : Prop where
  kept : BlockMap.Kept c0.eng c.eng
  bounded : c.eng.Bounded
  notCleared : c.sys.blockMapCleared = false
  notNull : c.sys.prevNull = false
  slot : ∀ p b, c.eng.prev = some p → c.eng.block p = some b →
    b.freeSlot c.sys.cpu.isBranchTaken = false

theorem settle_null {s : Sys} (h : s.prevNull = true) : (c.settle s).eng.prev = none := by
  simp [settle, h]

theorem settle_eng {s : Sys} (hnull : s.prevNull = false) (hclear : s.blockMapCleared = false) :
    (c.settle s).eng = c.eng := by
  simp [settle, hnull, hclear]

theorem Waiting.settle (h : Waiting c0 c) {s : Sys} (hq : Quiet c.sys s) : Waiting c0 (c.settle s) := by
  refine ⟨settle_kept h.kept s, settle_bounded h.bounded s, rfl, rfl, ?_⟩
  rcases hq with hnull | ⟨hnull, hclear, htaken, hlast⟩
  · exact .inl (settle_null hnull)
  · rw [settle_eng (hnull.trans h.notNull) (hclear.trans h.notCleared)]
    exact h.prev.imp_right fun ⟨he, ht, hl⟩ => ⟨he, htaken.trans ht, hlast.trans hl⟩

theorem Ready.settle (h : Ready c0 c) {s : Sys} (hq : Quiet c.sys s) : Ready c0 (c.settle s) := by
  refine ⟨settle_kept h.kept s, settle_bounded h.bounded s, rfl, rfl, fun p b hp hb => ?_⟩
  rcases hq with hnull | ⟨hnull, hclear, htaken, -⟩
  · rw [settle_null hnull] at hp
    cases hp
  · rw [settle_eng (hnull.trans h.notNull) (hclear.trans h.notCleared)] at hp hb
    show b.freeSlot s.cpu.isBranchTaken = false
    rw [htaken]
    exact h.slot p b hp hb

theorem Waiting.checkInterrupt (h : Waiting c0 c) (hc : c.checkInterrupt env host = some c') :
    Waiting c0 c' := by
  unfold SysConf.checkInterrupt at hc
  split at hc
  · exact Option.some.inj hc ▸ h
  · obtain ⟨⟨u, s⟩, hrun, rfl⟩ := Option.map_eq_some_iff.mp hc
    exact h.settle (rvCheckInterrupt_quiet (sysRaise_quiet env host.fuel) _ _ _ hrun)

theorem Waiting.refreshPrev (h : Waiting c0 c) (hfree : c0.NoFreeSlot env) {e : BlockMap SysBlock}
    (he : c.refreshPrev env = some e) : Ready c0 { c with eng := e } := by
  obtain ⟨hb, hblock, hfresh, hnone⟩ := refreshPrev_spec h.bounded he
  refine ⟨h.kept.of_eq hblock hfresh, hb, h.notCleared, h.notNull, fun p b hp hbp => ?_⟩
  rcases h.prev with hprev | ⟨heng, htaken, hlast⟩
  · rw [show e.prev = none from hnone hprev] at hp
    cases hp
  · have hsame : c0.refreshPrev env = some e := by
      rw [← he]
      unfold SysConf.refreshPrev
      rw [heng, hlast]
    show b.freeSlot c.sys.cpu.isBranchTaken = false
    rw [htaken]
    exact hfree b (Option.bind_eq_some_iff.mpr ⟨e, hsame, Option.bind_eq_some_iff.mpr ⟨p, hp, hbp⟩⟩)

theorem Ready.findOrTranslate (h : Ready c0 c) {o : Option Ref}
    (hfind : findOrTranslate env host c = some (o, c')) : Ready c0 c' := by
  obtain ⟨⟨l1, hl1, hb⟩, -⟩ := h.bounded.lookup env.extC c.sys.cpu.PC
  unfold SysConf.findOrTranslate at hfind
  rcases hlook : c.eng.blockLookupOrFind env.extC c.sys.cpu.PC with ⟨_ | r, e⟩
  · rw [hlook] at hl1 hfind
    obtain rfl : e = _ := hl1
    dsimp only at hfind
    generalize he : (if mapFull _ = true then _ else _ : BlockMap SysBlock) = e' at hfind
    have hready : Ready c0 { c with eng := e' } := by
      subst he
      split
      · exact ⟨h.kept.clear.of_eq rfl rfl, hb.clear.noPrev, h.notCleared, h.notNull,
          fun _ _ hp => nomatch hp⟩
      · exact ⟨h.kept.of_eq rfl rfl, hb, h.notCleared, h.notNull, h.slot⟩
    split at hfind
    · obtain ⟨-, rfl⟩ := Prod.mk.inj (Option.some.inj hfind)
      exact hready
    · split at hfind
      · cases hfind
      · rename_i d s hrun
        have hs := hready.settle (sysBlockTranslate_quiet (sysRaise_quiet env host.fuel) _ _ _ _ hrun)
        split at hfind
        · obtain ⟨-, rfl⟩ := Prod.mk.inj (Option.some.inj hfind)
          exact hs
        · split at hfind
          · cases hfind
          · obtain ⟨-, rfl⟩ := Prod.mk.inj (Option.some.inj hfind)
            refine ⟨hs.kept.insert _ rfl, hs.bounded.insert _ _, hs.notCleared, hs.notNull,
              fun p b hp hbp => hs.slot p b hp ?_⟩
            rw [← hbp]
            exact (Function.update_of_ne (hs.bounded.prev p hp).ne _ _).symm
  · rw [hlook] at hl1 hfind
    obtain rfl : e = _ := hl1
    obtain ⟨-, rfl⟩ := Prod.mk.inj (Option.some.inj hfind)
    have hkept : BlockMap.Kept c0.eng { c.eng with l1 } := h.kept.of_eq rfl rfl
    split
    · refine ⟨hkept.modify fun b _ => SysBlock.fuseLazily_same _ _ _ b, hb.modify _ _, h.notCleared,
        h.notNull, fun p b hp hbp => ?_⟩
      by_cases hpr : p = r
      · subst hpr
        simp only [BlockMap.modify, Function.update_self, Option.map_eq_some_iff] at hbp
        obtain ⟨b', hb', rfl⟩ := hbp
        rw [SysBlock.fuseLazily_freeSlot]
        exact h.slot p b' hp hb'
      · simp only [BlockMap.modify, Function.update_of_ne hpr] at hbp
        exact h.slot p b hp hbp
    · exact ⟨hkept, hb, h.notCleared, h.notNull, h.slot⟩

/-- With no slot to fill, linking changes nothing. -/
theorem Ready.linkAndRun (h : Ready c0 c) (r : Ref) : BlockMap.Kept c0.eng (c.linkAndRun r).eng := by
  unfold SysConf.linkAndRun
  split
  · exact h.kept
  · dsimp only
    split
    · rename_i p hp
      refine h.kept.modify fun b hb => ?_
      rw [SysBlock.link_of_not_freeSlot (h.slot p b hp hb)]
      exact .refl b
    · exact h.kept

theorem linkAndRun_between (c : SysConf) (r : Ref) : (c.linkAndRun r).between = false := by
  unfold linkAndRun
  split
  · rfl
  · rfl

/-- Between two blocks since `c0`, or halted for good. -/
def Idle (c0 c : SysConf) : Prop :=
  Waiting c0 c ∨ (c.sys.cpu.halt = true ∧ BlockMap.Kept c0.eng c.eng)

theorem Idle.kept (h : Idle c0 c) : BlockMap.Kept c0.eng c.eng := by
  rcases h with h | ⟨-, h⟩
  · exact h.kept
  · exact h

theorem Ready.noBlock (h : Ready c0 c) : BlockMap.Kept c0.eng (c.noBlock env host).eng ∧
    ((c.noBlock env host).between = true → Idle c0 (c.noBlock env host)) := by
  unfold SysConf.noBlock
  split
  · split
    · exact ⟨h.kept, fun hb => nomatch hb⟩
    · rename_i s _
      have hkept : BlockMap.Kept c0.eng { (c.settle s).eng with prev := none } :=
        (settle_kept h.kept s).of_eq rfl rfl
      exact ⟨hkept, fun _ => .inl ⟨hkept, (settle_bounded h.bounded s).noPrev, rfl, rfl, .inl rfl⟩⟩
  · exact ⟨h.kept, fun _ => .inr ⟨rfl, h.kept⟩⟩

/-- A change of `cycles_target` and of the place in the loop. -/
theorem Idle.moved (h : Idle c0 c) (target : BitVec 64) (loc : Loc) :
    Idle c0 { c with target, loc } := by
  rcases h with h | ⟨hhalt, h⟩
  · exact .inl ⟨h.kept, h.bounded, h.notCleared, h.notNull, h.prev⟩
  · exact .inr ⟨hhalt, h⟩

/-- One step from between two blocks installs no link. -/
theorem Idle.step (host : SysHost) (h : Idle c0 c) (hbetween : c.between = true) (hfree : c0.NoFreeSlot env) :
    BlockMap.Kept c0.eng (c.step env host).1.eng ∧
      ((c.step env host).1.between = true → Idle c0 (c.step env host).1) := by
  unfold SysConf.step
  unfold between at hbetween
  rcases hloc : c.loc with _ | _ | ⟨disp, cur, rest, cycle, pc⟩ | _
  · exact ⟨h.kept, fun _ => h.moved _ _⟩
  · dsimp only
    split
    · rename_i hgo
      rcases h with hw | ⟨hhalt, -⟩
      · rcases dispatch_cases env host c with hd | ⟨c1, e, o, c2, hc1, he, hfind, hd⟩
        · rw [hd]
          exact ⟨hw.kept, fun hb => nomatch hb⟩
        · have hready := ((hw.checkInterrupt hc1).refreshPrev hfree he).findOrTranslate hfind
          rw [hd]
          cases o with
          | none => exact hready.noBlock
          | some r =>
            refine ⟨hready.linkAndRun r, fun hb => ?_⟩
            rw [linkAndRun_between] at hb
            cases hb
      · rw [hhalt] at hgo
        cases hgo.2
    · exact ⟨h.kept, fun _ => h.moved _ _⟩
  · rw [hloc] at hbetween
    cases hbetween
  · rw [hloc] at hbetween
    cases hbetween

/-- The configuration right after an early return. -/
theorem waiting_signal (h : c.Bounded) {cur : Ref}
    (hsig : (c.step env host).2 = some (.signal cur)) :
    Waiting (c.step env host).1 (c.step env host).1 := by
  have hb := (step_bounded env host h).eng
  refine ⟨.refl hb, hb, ?_, ?_, .inr ⟨rfl, rfl, rfl⟩⟩
  all_goals
    unfold SysConf.step at hsig ⊢
    rcases hloc : c.loc with _ | _ | ⟨disp, cur', rest, cycle, pc⟩ | _
    · simp [hloc] at hsig
    · rw [hloc] at hsig
      dsimp only at hsig
      split at hsig <;> cases hsig
    · rw [hloc] at hsig
      dsimp only at hsig ⊢
      unfold stepRun at hsig ⊢
      split at hsig
      · cases hsig
      · dsimp only at hsig ⊢
        split at hsig
        · cases hsig
        · rename_i ctl s _
          cases ctl with
          | signal => rfl
          | ret ok => cases hsig
          | next cycle pc => dsimp only at hsig; split at hsig <;> cases hsig
          | enter r cycle pc => dsimp only at hsig; split at hsig <;> cases hsig
          | lookup cycle pc => dsimp only at hsig; split at hsig <;> cases hsig
    · simp [hloc] at hsig

/-- From `c` to `c'` no link has been installed in a block, and links that named the right blocks still
do. -/
structure NotLinked (c c' : SysConf) : Prop where
  links : ∀ r b b', c.eng.block r = some b → c'.eng.block r = some b' → b'.links = b.links
  named : c.eng.LinksNamed → c'.eng.LinksNamed

theorem notLinked_of_kept (h : BlockMap.Kept c.eng c'.eng) (hb : c.eng.Bounded) :
    c.NotLinked c' :=
  ⟨fun _ _ _ h0 h1 => h.links hb h0 h1, h.linksNamed hb⟩

end SysConf

/-- **No link is installed after an early return, if there is no slot to fill.** In a run from a
machine with an empty block map, in which every early return because of a pending signal leaves
`rv_step` with a previous block whose tail has no free slot, the iteration that follows such a return
installs no link: `rv_step` may return and be called again in between, and the links of every surviving
block are those it had. -/
theorem signal_not_linked (env : SysEnv) (host : SysHost) (s : Sys) (N : Nat)
    (hfree : ∀ n ≤ N, ∀ cur,
      ((SysConf.run env host { sys := s } n).step env host).2 = some (.signal cur) →
        (SysConf.run env host { sys := s } (n + 1)).NoFreeSlot env) :
    ∀ n ≤ N, ∀ cur,
      ((SysConf.run env host { sys := s } n).step env host).2 = some (.signal cur) →
      ∀ k, (∀ i ≤ k, (SysConf.run env host { sys := s } (n + 1 + i)).between = true) →
        (SysConf.run env host { sys := s } (n + 1)).NotLinked
          (SysConf.run env host { sys := s } (n + 1 + (k + 1))) := by
  intro n hn cur hsig k hbetween
  have hb := SysConf.run_bounded env host s n
  have hwait : SysConf.Waiting (SysConf.run env host { sys := s } (n + 1))
      (SysConf.run env host { sys := s } (n + 1)) := SysConf.waiting_signal hb hsig
  -- the invariant of the states between the two blocks
  have hidle : ∀ i ≤ k, SysConf.Idle (SysConf.run env host { sys := s } (n + 1))
      (SysConf.run env host { sys := s } (n + 1 + i)) := by
    intro i
    induction i with
    | zero => exact fun _ => .inl hwait
    | succ i ih =>
      intro hi
      have hprev := Nat.le_of_succ_le hi
      exact ((ih hprev).step host (hbetween i hprev) (hfree n hn cur hsig)).2 (hbetween (i + 1) hi)
  have hlast := ((hidle k le_rfl).step host (hbetween k le_rfl) (hfree n hn cur hsig)).1
  exact SysConf.notLinked_of_kept hlast hwait.bounded

/-! ## A page fault whose handler moves `sepc` -/

def roomySysHost : SysHost where
  blockAlloc _ := true
  fuseAlloc _ _ := true
  cyclePerStep := 100
  lazyAlloc _ _ := true
  fuel := 10

/-- At 0x1000 `lw t0, 0(t1)` and `last`; at 0x2000 the handler `csrrw x0, sepc, s0; sret`; at 0x3000
`j .`; at 0x4000 a page table whose only entry is a superpage at 0. -/
def faultMem (last : Word) : Mem :=
  (((((Mem.writeW (fun _ => 0) 0x1000 0x00032283).writeW 0x1004 last).writeW 0x2000
    0x14141073).writeW 0x2004 0x10200073).writeW 0x3000 0x0000006f).writeW 0x4000 0xf

/-- S-mode with the MMU on, at 0x1000; `t1` is an unmapped address and `s0` is 0x3000. -/
def faulting (last : Word) : Sys where
  cpu := { Cpu.zero (faultMem last) with
    PC := 0x1000, privMode := 1,
    X := fun r => if r = 6 then 0x00800000 else if r = 8 then 0x3000 else 0
    csr := { (Cpu.zero (faultMem last)).csr with stvec := 0x2000, satp := 4 } }

/-- The block ends in `ret`, which is never linked. -/
theorem signal_not_linked_ret :
    ((SysConf.run deviceless roomySysHost { sys := faulting 0x00008067 } 2).step deviceless
        roomySysHost).2 = some (.signal 0) ∧
      (SysConf.run deviceless roomySysHost { sys := faulting 0x00008067 } (2 + 1)).NotLinked
        (SysConf.run deviceless roomySysHost { sys := faulting 0x00008067 } (2 + 1 + (0 + 1))) := by
  have h0 : ((SysConf.run deviceless roomySysHost { sys := faulting 0x00008067 } 0).step deviceless
      roomySysHost).2 = none := by decide +kernel
  have h1 : ((SysConf.run deviceless roomySysHost { sys := faulting 0x00008067 } 1).step deviceless
      roomySysHost).2 = none := by decide +kernel
  have h2 : ((SysConf.run deviceless roomySysHost { sys := faulting 0x00008067 } 2).step deviceless
      roomySysHost).2 = some (.signal 0) := by decide +kernel
  have hfree : (SysConf.run deviceless roomySysHost { sys := faulting 0x00008067 } (2 + 1)).NoFreeSlot
      deviceless := SysConf.noFreeSlot_of_map (by decide +kernel)
  have hbetween : (SysConf.run deviceless roomySysHost { sys := faulting 0x00008067 }
      (2 + 1 + 0)).between = true := by decide +kernel
  refine ⟨h2, signal_not_linked deviceless roomySysHost (faulting 0x00008067) 2 (fun n hn cur => ?_) 2
    le_rfl 0 h2 0 fun i hi => ?_⟩
  · obtain rfl | rfl | rfl : n = 0 ∨ n = 1 ∨ n = 2 := by omega
    · exact fun hsig => nomatch h0.symm.trans hsig
    · exact fun hsig => nomatch h1.symm.trans hsig
    · exact fun _ => hfree
  · obtain rfl : i = 0 := Nat.le_zero.mp hi
    exact hbetween

/-- The block ends in `bne ra, sp, 16`, at 0x1004: its fallthrough slot gets the block at 0x3000, neither
0x1008 nor 0x1014. -/
theorem signal_linked_fault :
    ((SysConf.run deviceless roomySysHost { sys := faulting 0x00209863 } 2).step deviceless
        roomySysHost).2 = some (.signal 0) ∧
      (SysConf.run deviceless roomySysHost { sys := faulting 0x00209863 } 3).between = true ∧
      ((SysConf.run deviceless roomySysHost { sys := faulting 0x00209863 } 4).eng.block 0).map
        (fun b => (b.links.untaken, b.pcEnd, b.tail.branchTarget)) = some (some 1, 0x1008, some 0x1014) ∧
      ((SysConf.run deviceless roomySysHost { sys := faulting 0x00209863 } 4).eng.block 1).map
        (fun b => b.pcStart) = some 0x3000 ∧
      ¬(SysConf.run deviceless roomySysHost { sys := faulting 0x00209863 } 3).NotLinked
        (SysConf.run deviceless roomySysHost { sys := faulting 0x00209863 } 4) := by
  have hbefore : ((SysConf.run deviceless roomySysHost { sys := faulting 0x00209863 } 3).eng.block
      0).map (fun b => b.links) = some {} := by decide +kernel
  have hafter : ((SysConf.run deviceless roomySysHost { sys := faulting 0x00209863 } 4).eng.block
      0).map (fun b => b.links) = some { untaken := some 1 } := by decide +kernel
  refine ⟨by decide +kernel, by decide +kernel, by decide +kernel, by decide +kernel, fun h => ?_⟩
  obtain ⟨b, hb, hlinks⟩ := Option.map_eq_some_iff.mp hbefore
  obtain ⟨b', hb', hlinks'⟩ := Option.map_eq_some_iff.mp hafter
  have hsame : b'.links = b.links := h.links 0 b b' hb hb'
  have : ({ untaken := some 1 } : Links) = {} := hlinks'.symm.trans (hsame.trans hlinks)
  exact absurd this (by decide)

end Rv32emu
