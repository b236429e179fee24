import Rv32emu.BlockPages
import Rv32emu.LazyMask

/-!
# Lazy fusion fuses the addresses it has checked

`try_lazy_fusion` computes the addresses of a run of loads or stores when the block is entered, and the fused
instruction computes them again when it is reached.

* `Seg.Form` : the nodes that stand for a piece of a block, fused or not; `LazilyFused.forms` : those of a block
  after any number of calls of `try_lazy_fusion`;
* `Executes` : a run from the entry of the block has come to an element, by itself or inside the fused instruction
  (`Element.sysImpl_fusedNode`);
* `Executes.base` : what its base then holds;
* `stable_iff` : when lazy fusion is stable; `c.srli`, `c.srai` and `c.andi` change a base that is not recorded
  (`cleared_base_registered`).
-/

namespace Rv32emu

open StateRel

/-! ## The nodes of a block -/

/-- The node that `try_lazy_fusion` makes of a candidate. -/
def LazyCandidate.fusedNode (c : LazyCandidate) : Insn :=
  { c.irs.headD {} with
    opcode := if c.isLoad then .fuse4 else .fuse3
    imm2 := BitVec.ofNat 32 c.count.toNat
    fuse := (c.irs.take c.count.toNat).map Insn.toFuse }

/-- The nodes that stand for a piece of a block, fused or not. -/
inductive Seg.Form : Seg → List Insn → Prop
  | asIs (seg : Seg) : Seg.Form seg seg.irs
  | fused (c : LazyCandidate) (hcount : 1 < c.count.toNat) :
      Seg.Form (.candidate c) (c.fusedNode :: c.irs.drop c.count.toNat)

/-- What has become of a piece: it is as it was, or its nodes are settled. -/
inductive Seg.Stage : Seg → List Seg → Prop
  | pending (seg : Seg) : Seg.Stage seg [seg]
  | settled {seg : Seg} {irs : List Insn} (hform : seg.Form irs) : Seg.Stage seg (irs.map .node)

/-- A block after some calls of `try_lazy_fusion`. -/
def LazilyFused (env : SysEnv) : List Seg → List Seg → Prop :=
  Relation.ReflTransGen fun segs segs' => ∃ alloc s, segs' = tryLazyFusion env alloc s segs

theorem tryFuseSequence_fused {alloc : Word → Bool} {ir : Insn} {rest : List Insn} {count : Nat} {op : Opcode}
    (h : (tryFuseSequence alloc ir rest count op).2 ≠ 0) :
    1 < count ∧ tryFuseSequence alloc ir rest count op =
      ({ ir with opcode := op, imm2 := BitVec.ofNat 32 count,
                 fuse := ir.toFuse :: (rest.take (count - 1)).map Insn.toFuse }, count - 1) := by
  unfold tryFuseSequence at h ⊢
  split_ifs at h ⊢ with hone hmax halloc
  all_goals first
    | exact absurd rfl h
    | exact ⟨not_le.mp hone, rfl⟩

theorem Seg.tryFuse_stage (env : SysEnv) (alloc : Word → Bool) (x : Reg → Word) (seg : Seg) :
    seg.Stage (seg.tryFuse env alloc x) := by
  cases seg with
  | node ir => exact .pending _
  | candidate c =>
    unfold Seg.tryFuse
    simp only
    by_cases hram : ((c.irs.take c.count.toNat).all fun ir => env.ramContains (x ir.rs1 + ir.imm) 4) = true
    · rw [if_pos hram]
      split
      · exact .pending _
      · rename_i ir rest hirs
        by_cases hnone :
            (tryFuseSequence alloc ir rest c.count.toNat (if c.isLoad then .fuse4 else .fuse3)).2 = 0
        · rw [if_pos hnone]
          exact .pending _
        · obtain ⟨hcount, heq⟩ := tryFuseSequence_fused hnone
          rw [if_neg hnone, heq]
          have hstage := Seg.Stage.settled (Seg.Form.fused c hcount)
          rw [LazyCandidate.fusedNode, hirs, List.take_cons (by omega), List.drop_cons (by omega)] at hstage
          exact hstage
    · rw [if_neg hram]
      exact .settled (.asIs (.candidate c))

theorem Seg.Stage.tryLazyFusion {seg : Seg} {l : List Seg} (h : seg.Stage l) (env : SysEnv) (alloc : Word → Bool)
    (s : Cpu) : seg.Stage (tryLazyFusion env alloc s l) := by
  unfold Rv32emu.tryLazyFusion
  cases h with
  | pending =>
    split_ifs
    · rw [List.flatMap_singleton]
      exact .settled (.asIs seg)
    · rw [List.flatMap_singleton]
      exact seg.tryFuse_stage env alloc s.X
  | @settled irs hform =>
    have hnodes (f : Seg → List Seg) (hf : ∀ ir, f (.node ir) = [.node ir]) :
        (irs.map Seg.node).flatMap f = irs.map .node := by
      rw [List.flatMap_map, List.map_eq_flatMap]
      simp only [hf]
    split_ifs
    · rw [hnodes _ fun _ => rfl]
      exact .settled hform
    · rw [hnodes _ fun _ => rfl]
      exact .settled hform

theorem tryLazyFusion_append (env : SysEnv) (alloc : Word → Bool) (s : Cpu) (l l' : List Seg) :
    tryLazyFusion env alloc s (l ++ l') = tryLazyFusion env alloc s l ++ tryLazyFusion env alloc s l' := by
  unfold tryLazyFusion
  split_ifs
  · exact List.flatMap_append
  · exact List.flatMap_append

theorem tryLazyFusion_flatten (env : SysEnv) (alloc : Word → Bool) (s : Cpu) (ls : List (List Seg)) :
    tryLazyFusion env alloc s ls.flatten = (ls.map (tryLazyFusion env alloc s)).flatten := by
  induction ls with
  | nil =>
    unfold tryLazyFusion
    split_ifs <;> rfl
  | cons l ls ih => rw [List.flatten_cons, tryLazyFusion_append, ih, List.map_cons, List.flatten_cons]

theorem Seg.Stage.form {seg : Seg} {l : List Seg} (h : seg.Stage l) : seg.Form (l.flatMap Seg.irs) := by
  cases h with
  | pending =>
    rw [List.flatMap_singleton]
    exact .asIs seg
  | @settled irs hform =>
    rw [List.flatMap_map]
    exact (List.flatMap_singleton' irs).symm ▸ hform

/-- **The nodes of a block**, after any number of calls of `try_lazy_fusion`. -/
theorem LazilyFused.forms {env : SysEnv} {segs segs' : List Seg} (h : LazilyFused env segs segs') :
    ∃ forms, List.Forall₂ Seg.Form segs forms ∧ segs'.flatMap Seg.irs = forms.flatten := by
  have hstages : ∃ ls, List.Forall₂ Seg.Stage segs ls ∧ segs' = ls.flatten := by
    induction h with
    | refl =>
      refine ⟨segs.map fun seg => [seg], ?_, ?_⟩
      · rw [List.forall₂_map_right_iff]
        exact List.forall₂_same.mpr fun seg _ => .pending seg
      · exact (List.flatMap_singleton' segs).symm
    | tail _ hstep ih =>
      obtain ⟨alloc, s, rfl⟩ := hstep
      obtain ⟨ls, hls, rfl⟩ := ih
      refine ⟨ls.map (tryLazyFusion env alloc s), ?_, tryLazyFusion_flatten ..⟩
      rw [List.forall₂_map_right_iff]
      exact hls.imp fun _ _ hstage => hstage.tryLazyFusion env alloc s
  obtain ⟨ls, hls, rfl⟩ := hstages
  refine ⟨ls.map (List.flatMap Seg.irs), ?_, ?_⟩
  · rw [List.forall₂_map_right_iff]
    exact hls.imp fun _ _ hstage => hstage.form
  · rw [List.flatMap_def, List.map_flatten, List.flatten_flatten, List.map_map]
    rfl

/-! ## Runs through a block -/

def Sys.settled (s : Sys) : Sys := { s with blockMapCleared := false, prevNull := false }

section Runs

variable (env : SysEnv) (raise : Raise)

/-- Nodes that something follows, one after the other, as `stepRun` runs them. -/
def sysRunNodes : List Insn → BitVec 64 → Word → SysM SysCtl
  | [], cycle, pc => return .next cycle pc
  | ir :: irs, cycle, pc => do
    match ← sysImpl env raise ir {} false cycle pc with
    | .next cycle pc =>
      modify Sys.settled
      sysRunNodes irs cycle pc
    | r => return r

def Reaches (irs : List Insn) (s s' : Sys) : Prop :=
  ∃ cycle pc cycle' pc', sysRunNodes env raise irs cycle pc s = some (.next cycle' pc', s')

/-- The loop of a fused candidate over some of its entries, and what follows. -/
def LazyCandidate.loop (c : LazyCandidate) (cycle : BitVec 64) (pc : Word) (k : SysM SysCtl) :
    List OpcodeFuse → SysM SysCtl :=
  if c.isLoad then sysFuseMem env raise .loadMisaligned (sysFuseLw env raise) cycle pc k
  else sysFuseMem env raise .storeMisaligned (sysFuseSw env raise) cycle pc k

/-- The loop has done the entries of the nodes `a`. -/
def LazyCandidate.LoopReaches (c : LazyCandidate) (a : List Insn) (s s' : Sys) : Prop :=
  ∃ cycle pc cycle' pc', (do
    modifyCpu fun s => { s with PC := pc }
    c.loop env raise cycle pc (return .next cycle pc) (a.map Insn.toFuse)) s = some (.next cycle' pc', s')

end Runs

/-- An element of a candidate of the block, with what stands before it. -/
structure Element (segs : List Seg) where
  pre : List Seg
  c : LazyCandidate
  suf : List Seg
  segs_eq : segs = pre ++ .candidate c :: suf
  a : List Insn
  e : Insn
  b : List Insn
  irs_eq : c.irs = a ++ e :: b

section Fused

variable (env : SysEnv) (raise : Raise)

theorem sysFuseMem_append (cause : SysCause) (access : OpcodeFuse → Word → SysM Unit) (cycle : BitVec 64) (pc : Word)
    (k : SysM SysCtl) (fs gs : List OpcodeFuse) :
    sysFuseMem env raise cause access cycle pc k (fs ++ gs) =
      sysFuseMem env raise cause access cycle pc (sysFuseMem env raise cause access cycle pc k gs) fs := by
  induction fs with
  | nil => rfl
  | cons f fs ih => rw [List.cons_append, sysFuseMem, sysFuseMem, ih]

theorem LazyCandidate.loop_append (c : LazyCandidate) (cycle : BitVec 64) (pc : Word) (k : SysM SysCtl)
    (fs gs : List OpcodeFuse) :
    c.loop env raise cycle pc k (fs ++ gs) = c.loop env raise cycle pc (c.loop env raise cycle pc k gs) fs := by
  unfold LazyCandidate.loop
  split <;> exact sysFuseMem_append ..

theorem LazyCandidate.sysImpl_fusedNode (c : LazyCandidate) (lk : Links) (noNext : Bool) (cycle : BitVec 64)
    (pc : Word) :
    ∃ cycle' pc', sysImpl env raise c.fusedNode lk noNext cycle pc = (do
      modifyCpu fun s => { s with PC := pc }
      c.loop env raise cycle' pc (sysFuseNextOrStop noNext cycle' pc')
        ((c.irs.take c.count.toNat).map Insn.toFuse)) := by
  have hfuse : c.fusedNode.fuse.take c.fusedNode.imm2.toNat = (c.irs.take c.count.toNat).map Insn.toFuse := by
    have hlt := c.count.isLt
    have himm : c.fusedNode.imm2.toNat = c.count.toNat := by
      rw [LazyCandidate.fusedNode, BitVec.toNat_ofNat, Nat.mod_eq_of_lt (by omega)]
    rw [himm, LazyCandidate.fusedNode]
    exact List.take_of_length_le (by simp)
  refine ⟨cycle + c.fusedNode.imm2.signExtend 64, pc + c.fusedNode.imm2 * 4, ?_⟩
  unfold LazyCandidate.loop
  rw [← hfuse]
  cases hload : c.isLoad with
  | true =>
    have hop : c.fusedNode.opcode = .fuse4 := by rw [LazyCandidate.fusedNode, hload, if_pos rfl]
    simp only [sysImpl, hop, if_true]
    rfl
  | false =>
    have hop : c.fusedNode.opcode = .fuse3 := by rw [LazyCandidate.fusedNode, hload, if_neg (by decide)]
    simp only [sysImpl, hop, if_true]
    rfl

/-- It comes to an element of the fused part after the elements before it. -/
theorem Element.sysImpl_fusedNode {segs : List Seg} (x : Element segs) (hin : x.a.length < x.c.count.toNat) (lk : Links)
    (noNext : Bool) (cycle : BitVec 64) (pc : Word) :
    ∃ cycle' pc' rest, sysImpl env raise x.c.fusedNode lk noNext cycle pc = (do
      modifyCpu fun s => { s with PC := pc }
      x.c.loop env raise cycle' pc
        (x.c.loop env raise cycle' pc (sysFuseNextOrStop noNext cycle' pc') (x.e.toFuse :: rest))
        (x.a.map Insn.toFuse)) := by
  obtain ⟨cycle', pc', hrun⟩ := x.c.sysImpl_fusedNode env raise lk noNext cycle pc
  have hcopies : (x.c.irs.take x.c.count.toNat).map Insn.toFuse =
      x.a.map Insn.toFuse ++ x.e.toFuse :: (x.b.take (x.c.count.toNat - x.a.length - 1)).map Insn.toFuse := by
    rw [x.irs_eq, List.take_append, List.take_of_length_le hin.le, List.take_cons (by omega), List.map_append,
      List.map_cons]
  exact ⟨cycle', pc', _, by rw [hrun, hcopies, x.c.loop_append]⟩

end Fused

/-- An element is about to run in `s`, by itself or in the fused instruction, after the block has been entered in
`s₀`. -/
inductive Executes (env : SysEnv) (raise : Raise) {segs : List Seg} (x : Element segs) (s₀ s : Sys) : Prop
  | node {before : List (List Insn)} {f : List Insn} (hpre : List.Forall₂ Seg.Form x.pre before)
      (hform : (Seg.candidate x.c).Form (f ++ x.e :: x.b)) (hrun : Reaches env raise (before.flatten ++ f) s₀ s)
  | fused {before : List (List Insn)} {s₁ : Sys} (hpre : List.Forall₂ Seg.Form x.pre before)
      (hcount : 1 < x.c.count.toNat) (hin : x.a.length < x.c.count.toNat)
      (hrun : Reaches env raise before.flatten s₀ s₁)
      (hloop : x.c.LoopReaches env raise x.a s₁ s)

/-- **Lazy fusion is stable** on a block entered in `s₀`: the base of an element is what it was at the entry, so that
the address is the one that `try_lazy_fusion` computes there, and the count is the length of the run. -/
structure Stable (env : SysEnv) (raise : Raise) (segs : List Seg) (s₀ : Sys) : Prop where
  base : ∀ (x : Element segs) s, Executes env raise x s₀ s → s.cpu.X x.e.rs1 = s₀.cpu.X x.e.rs1
  addr : ∀ (x : Element segs) s, Executes env raise x s₀ s → addrImm x.e s.cpu.X = addrImm x.e s₀.cpu.X
  count : ∀ c, .candidate c ∈ segs → c.count.toNat = c.irs.length

/-- The nodes of the block at an element, after any number of calls of `try_lazy_fusion`. -/
theorem LazilyFused.at {env : SysEnv} {segs segs' : List Seg} (h : LazilyFused env segs segs') (x : Element segs) :
    ∃ before l after, List.Forall₂ Seg.Form x.pre before ∧ (Seg.candidate x.c).Form l ∧
      segs'.flatMap Seg.irs = before.flatten ++ (l ++ after) := by
  obtain ⟨forms, hforms, hirs⟩ := h.forms
  rw [x.segs_eq] at hforms
  have hpre := List.forall₂_take x.pre.length hforms
  have hrest := List.forall₂_drop x.pre.length hforms
  have happend := List.take_append_drop x.pre.length forms
  rw [List.take_left] at hpre
  rw [List.drop_left] at hrest
  generalize forms.take x.pre.length = before at hpre happend
  generalize forms.drop x.pre.length = rest at hrest happend
  cases hrest with
  | @cons _ l _ after hform hsuf =>
    refine ⟨before, l, after.flatten, hpre, hform, ?_⟩
    rw [hirs, ← happend, List.flatten_append, List.flatten_cons]

/-- What a list of nodes makes of the value of a register that none of them loads. -/
def inPlaceRun (irs : List Insn) (r : Reg) (v : Word) : Word := irs.foldl (fun v ir => ir.inPlace r v) v

def Element.before {segs : List Seg} (x : Element segs) : List Insn := x.pre.flatMap Seg.irs ++ x.a

/-! ## What the nodes before an element do to its base -/

theorem inPlaceRun_append (l l' : List Insn) (r : Reg) (v : Word) :
    inPlaceRun (l ++ l') r v = inPlaceRun l' r (inPlaceRun l r v) := List.foldl_append ..

theorem inPlaceRun_of_all {irs : List Insn} {r : Reg} (h : ∀ ir ∈ irs, ∀ v, ir.inPlace r v = v) (v : Word) :
    inPlaceRun irs r v = v := by
  induction irs with
  | nil => rfl
  | cons ir irs ih =>
    show inPlaceRun irs r (ir.inPlace r v) = v
    rw [h ir (List.mem_cons_self ..)]
    exact ih fun x hx => h x (List.mem_cons_of_mem _ hx)

namespace LazyCandidate

variable {c : LazyCandidate} {ir : Insn}

theorem inPlace_eq (hir : ir ∈ c.irs) (r : Reg) (v : Word) : ir.inPlace r v = v := by
  have hop := c.ops ir hir
  cases hload : c.isLoad <;> simp [Insn.inPlace, hop, hload]

theorem fusedNode_inPlace (c : LazyCandidate) (r : Reg) (v : Word) : c.fusedNode.inPlace r v = v := by
  cases hload : c.isLoad <;> simp [Insn.inPlace, fusedNode, hload]

/-- The elements of a run of loads load their `rd`, those of a run of stores nothing. -/
theorem mem_dests (hir : ir ∈ c.irs) (q : Reg) : q ∈ ir.dests ↔ c.isLoad = true ∧ q = ir.rd := by
  have hop := c.ops ir hir
  cases hload : c.isLoad <;> simp [Insn.dests, rvop, hop, hload]

theorem fusedNode_dests {q : Reg} (hq : q ∈ c.fusedNode.dests) :
    ∃ ir ∈ c.irs.take c.count.toNat, q ∈ ir.dests := by
  cases hload : c.isLoad with
  | false =>
    simp only [Insn.dests, fusedNode, hload] at hq
    cases hq
  | true =>
    simp only [Insn.dests, fusedNode, hload] at hq
    obtain ⟨f, hf, rfl⟩ := List.mem_map.mp hq
    obtain ⟨ir, hir, rfl⟩ := List.mem_map.mp (List.mem_of_mem_take hf)
    exact ⟨ir, hir, (mem_dests (List.mem_of_mem_take hir) _).mpr ⟨hload, rfl⟩⟩

end LazyCandidate

theorem Seg.Form.dests {seg : Seg} {l : List Insn} (h : seg.Form l) {q : Reg} (hq : ∃ ir ∈ l, q ∈ ir.dests) :
    ∃ ir ∈ seg.irs, q ∈ ir.dests := by
  cases h with
  | asIs => exact hq
  | fused c hcount =>
    obtain ⟨ir, hir, hq⟩ := hq
    obtain rfl | hir := List.mem_cons.mp hir
    · obtain ⟨ir, hir, hq⟩ := c.fusedNode_dests hq
      exact ⟨ir, List.mem_of_mem_take hir, hq⟩
    · exact ⟨ir, List.mem_of_mem_drop hir, hq⟩

theorem Seg.Form.inPlaceRun {seg : Seg} {l : List Insn} (h : seg.Form l) (r : Reg) (v : Word) :
    inPlaceRun l r v = inPlaceRun seg.irs r v := by
  cases h with
  | asIs => rfl
  | fused c hcount =>
    have hirs : Rv32emu.inPlaceRun c.irs r v = v := inPlaceRun_of_all (fun ir hir => c.inPlace_eq hir r) v
    rw [Seg.irs, hirs]
    refine inPlaceRun_of_all (fun ir hir v => ?_) v
    obtain rfl | hir := List.mem_cons.mp hir
    · exact c.fusedNode_inPlace r v
    · exact c.inPlace_eq (List.mem_of_mem_drop hir) r v

theorem forms_dests {segs : List Seg} {forms : List (List Insn)} (h : List.Forall₂ Seg.Form segs forms) {q : Reg}
    (hq : ∃ ir ∈ forms.flatten, q ∈ ir.dests) : ∃ ir ∈ segs.flatMap Seg.irs, q ∈ ir.dests := by
  induction h with
  | nil => exact hq
  | @cons seg l _ _ hform _ ih =>
    obtain ⟨ir, hir, hq⟩ := hq
    obtain hir | hir := List.mem_append.mp hir
    · obtain ⟨ir, hir, hq⟩ := hform.dests ⟨ir, hir, hq⟩
      exact ⟨ir, List.mem_append_left _ hir, hq⟩
    · obtain ⟨ir, hir, hq⟩ := ih ⟨ir, hir, hq⟩
      exact ⟨ir, List.mem_append_right _ hir, hq⟩

theorem forms_inPlaceRun {segs : List Seg} {forms : List (List Insn)} (h : List.Forall₂ Seg.Form segs forms) (r : Reg)
    (v : Word) : inPlaceRun forms.flatten r v = inPlaceRun (segs.flatMap Seg.irs) r v := by
  induction h generalizing v with
  | nil => rfl
  | cons hform _ ih =>
    rw [List.flatten_cons, List.flatMap_cons, inPlaceRun_append, inPlaceRun_append, hform.inPlaceRun, ih]

/-! ## Runs -/

section Registers

variable {env : SysEnv} (hdev : env.LeavesRegs) {raise : Raise} {r : Reg}
  (hraise : ∀ cause tval, Within (Keeps r) (raise cause tval))

include hdev hraise

theorem Reaches.reg {irs : List Insn} (hr : ¬ ∃ ir ∈ irs, r ∈ ir.dests) {s s' : Sys} (h : Reaches env raise irs s s') :
    s'.cpu.X r = inPlaceRun irs r (s.cpu.X r) := by
  obtain ⟨cycle, pc, cycle', pc', h⟩ := h
  induction irs generalizing cycle pc s with
  | nil =>
    cases h
    rfl
  | cons ir irs ih =>
    obtain ⟨ctl, s₁, hnode, h⟩ := bind_eq_some.mp h
    cases ctl with
    | next c p =>
      obtain ⟨u, s₂, hsettled, h⟩ := bind_eq_some.mp h
      cases hsettled
      have hfirst := sysImpl_reg hdev hraise (fun hq => hr ⟨ir, List.mem_cons_self .., hq⟩) hnode
      have hrest := ih (fun ⟨x, hx, hq⟩ => hr ⟨x, List.mem_cons_of_mem _ hx, hq⟩) _ _ h
      rw [hrest]
      exact congrArg (inPlaceRun irs r) hfirst
    | _ => cases h

theorem LazyCandidate.LoopReaches.reg {c : LazyCandidate} {a : List Insn}
    (hr : c.isLoad = true → ∀ x ∈ a, x.rd ≠ r) {s s' : Sys} (h : c.LoopReaches env raise a s s') :
    s'.cpu.X r = s.cpu.X r := by
  obtain ⟨cycle, pc, cycle', pc', h⟩ := h
  have hloop : Within (Keeps r) (c.loop env raise cycle pc (return .next cycle pc) (a.map Insn.toFuse)) := by
    unfold LazyCandidate.loop
    split
    · rename_i hload
      refine sysFuseMem_keeps hraise _ _ _ (.pure _) fun f hf addr => sysFuseLw_keeps hdev hraise ?_ addr
      obtain ⟨x, hx, rfl⟩ := List.mem_map.mp hf
      exact hr hload x hx
    · exact sysFuseMem_keeps hraise _ _ _ (.pure _) fun f _ addr => sysFuseSw_keeps hdev hraise f addr
  obtain ⟨u, s₁, hpc, h⟩ := bind_eq_some.mp h
  cases hpc
  have hkept := hloop _ _ _ h
  exact hkept

end Registers

/-! ## Elements -/

/-- In the fused form of its candidate, an element that is not in the fused instruction follows it. -/
theorem Seg.Form.before {c : LazyCandidate} {a b f : List Insn} {e : Insn} (hsplit : c.irs = a ++ e :: b)
    (h : (Seg.candidate c).Form (f ++ e :: b)) (r : Reg) :
    (∀ v, Rv32emu.inPlaceRun f r v = v) ∧ ((∃ ir ∈ f, r ∈ ir.dests) → ∃ ir ∈ a, r ∈ ir.dests) := by
  generalize hl : f ++ e :: b = l at h
  cases h with
  | asIs =>
    have hf : f = a := List.append_cancel_right (hl.trans hsplit)
    subst hf
    refine ⟨inPlaceRun_of_all fun ir hir => c.inPlace_eq ?_ r, id⟩
    rw [hsplit]
    exact List.mem_append_left _ hir
  | fused _ hcount =>
    obtain _ | ⟨ir, f⟩ := f
    · -- the fused instruction is no element
      obtain ⟨rfl, -⟩ := List.cons_eq_cons.mp hl
      have hop := c.ops c.fusedNode (by rw [hsplit]; simp)
      cases hload : c.isLoad <;> simp [LazyCandidate.fusedNode, hload] at hop
    · obtain ⟨rfl, -⟩ := List.cons_eq_cons.mp hl
      have hdrop : f ++ e :: b = c.irs.drop c.count.toNat := (List.cons_eq_cons.mp hl).2
      have happend : a ++ e :: b = (c.irs.take c.count.toNat ++ f) ++ e :: b := by
        rw [← hsplit, List.append_assoc, hdrop, List.take_append_drop]
      have ha := List.append_cancel_right happend
      have hmem {ir : Insn} (hir : ir ∈ f) : ir ∈ c.irs := by
        rw [hsplit, ha]
        simp [hir]
      constructor
      · refine inPlaceRun_of_all fun ir hir v => ?_
        obtain rfl | hir := List.mem_cons.mp hir
        · exact c.fusedNode_inPlace r v
        · exact c.inPlace_eq (hmem hir) r v
      · rintro ⟨ir, hir, hq⟩
        rw [ha]
        obtain rfl | hir := List.mem_cons.mp hir
        · obtain ⟨x, hx, hq⟩ := c.fusedNode_dests hq
          exact ⟨x, List.mem_append_left _ hx, hq⟩
        · exact ⟨ir, List.mem_append_right _ hir, hq⟩

/-- Nothing before an element of a block of a `SYSTEM_MMIO` build loads its base, unless that is `x0`. -/
theorem Element.not_dest {alloc : Word → Bool} {irs : List Insn} (hirs : ∀ ir ∈ irs, ir.opcode.isFuse = false)
    {segs : List Seg} (hsegs : segs = matchPatternMmio alloc 0 0 irs) (x : Element segs)
    (hx0 : x.e.rs1 = 0 → ∀ ir ∈ x.before, regZero ∉ ir.dests) :
    ¬ ∃ ir ∈ x.before, x.e.rs1 ∈ ir.dests := by
  rintro ⟨ir, hir, hq⟩
  by_cases hbase : x.e.rs1 = 0
  · refine hx0 hbase ir hir ?_
    rw [hbase] at hq
    exact hq
  · obtain ⟨m, hsafe, -, -, hpre⟩ := matchPatternMmio_candidate hirs 0 0 (hsegs.symm.trans x.segs_eq)
    obtain ⟨hm, ha⟩ := safe_base hsafe x.irs_eq hbase
    obtain hir | hir := List.mem_append.mp hir
    · obtain ⟨seg, hseg, hir⟩ := List.mem_flatMap.mp hir
      exact hm (hpre seg hseg ir hir _ hq hbase)
    · obtain ⟨hload, hrd⟩ := (LazyCandidate.mem_dests (by rw [x.irs_eq]; exact List.mem_append_left _ hir) _).mp hq
      exact ha hload ir hir hrd.symm

theorem Executes.base {env : SysEnv} (hdev : env.LeavesRegs) {raise : Raise} {segs : List Seg} {x : Element segs}
    (hraise : ∀ cause tval, Within (Keeps x.e.rs1) (raise cause tval))
    (hdest : ¬ ∃ ir ∈ x.before, x.e.rs1 ∈ ir.dests) {s₀ s : Sys} (h : Executes env raise x s₀ s) :
    s.cpu.X x.e.rs1 = inPlaceRun (x.pre.flatMap Seg.irs) x.e.rs1 (s₀.cpu.X x.e.rs1) := by
  have hpre : ¬ ∃ ir ∈ x.pre.flatMap Seg.irs, x.e.rs1 ∈ ir.dests :=
    fun ⟨ir, hir, hq⟩ => hdest ⟨ir, List.mem_append_left _ hir, hq⟩
  have ha : ¬ ∃ ir ∈ x.a, x.e.rs1 ∈ ir.dests :=
    fun ⟨ir, hir, hq⟩ => hdest ⟨ir, List.mem_append_right _ hir, hq⟩
  cases h with
  | @node before f hforms hform hrun =>
    obtain ⟨hplace, hf⟩ := hform.before x.irs_eq x.e.rs1
    have hboth : ¬ ∃ ir ∈ before.flatten ++ f, x.e.rs1 ∈ ir.dests := by
      rintro ⟨ir, hir, hq⟩
      obtain hir | hir := List.mem_append.mp hir
      · exact hpre (forms_dests hforms ⟨ir, hir, hq⟩)
      · exact ha (hf ⟨ir, hir, hq⟩)
    rw [hrun.reg hdev hraise hboth, inPlaceRun_append, hplace, forms_inPlaceRun hforms]
  | @fused before s₁ hforms hcount hin hrun hloop =>
    have hload (h : x.c.isLoad = true) : ∀ y ∈ x.a, y.rd ≠ x.e.rs1 := by
      intro y hy hrd
      have hmem : y ∈ x.c.irs := by
        rw [x.irs_eq]
        exact List.mem_append_left _ hy
      exact ha ⟨y, hy, (LazyCandidate.mem_dests hmem _).mpr ⟨h, hrd.symm⟩⟩
    rw [hloop.reg hdev hraise hload, hrun.reg hdev hraise (fun hq => hpre (forms_dests hforms hq)),
      forms_inPlaceRun hforms]

/-! ## Blocks -/

theorem constoptRun_not_fuse {irs : List Insn} (h : ∀ ir ∈ irs, ir.opcode.isFuse = false) (info : ConstoptInfo) :
    ∀ ir ∈ (constoptRun irs info).1, ir.opcode.isFuse = false := by
  induction irs generalizing info with
  | nil => exact h
  | cons ir irs ih =>
    rintro x (_ | hx)
    · exact (constopt_opcode ir info).2 (h ir (List.mem_cons_self ..))
    · exact ih (fun y hy => h y (List.mem_cons_of_mem _ hy)) _ x ‹_›

theorem Sequence.not_fuse {extC : Bool} {pc pcEnd : Word} {irs : List Insn} {insns : List Word}
    (h : Sequence extC pc irs insns pcEnd) : ∀ ir ∈ irs, ir.opcode.isFuse = false := by
  induction h with
  | nil => simp
  | cons hdec _ ih =>
    rintro x (_ | hx)
    · exact (rvDecodeInto_not_fuse hdec :)
    · exact ih x ‹_›

/-- Only a `SYSTEM_MMIO` build with fusion registers candidates. -/
theorem optimize_candidate {env : SysEnv} {alloc : Word → Bool} {irs : List Insn} {c : LazyCandidate}
    (h : .candidate c ∈ SysConf.optimize env alloc irs) :
    SysConf.optimize env alloc irs = matchPatternMmio alloc 0 0 (optimizeConstant irs) := by
  have hnone (l : List Insn) : .candidate c ∉ l.map Seg.node := by simp
  unfold SysConf.optimize at h ⊢
  simp only at h ⊢
  split_ifs at h ⊢
  · exact (hnone _ h).elim
  · exact (hnone _ h).elim
  · rfl

theorem Element.mem {segs : List Seg} (x : Element segs) : .candidate x.c ∈ segs := by
  have hmem : Seg.candidate x.c ∈ x.pre ++ .candidate x.c :: x.suf := List.mem_append_right _ (List.mem_cons_self ..)
  rw [← x.segs_eq] at hmem
  exact hmem

/-- **When lazy fusion is stable.** Let a block be entered in any state, let the nested trap handlers give the
registers back, and let nothing that stands before an element based on `x0` load `x0`. Then the bases and the
addresses are those of the entry exactly if no node before an element that executes has changed its base in
place, and the counts are right exactly if no run is longer than a `uint8_t` counts. -/
theorem stable_iff {env : SysEnv} (hdev : env.LeavesRegs) (raise : Raise) (alloc : Word → Bool) (t : BuiltBlock env)
    (s₀ : Sys)
    (hx0 : ∀ x : Element (SysConf.optimize env alloc t.decoding.irs), x.e.rs1 = 0 →
        ∀ ir ∈ x.before, regZero ∉ ir.dests) :
    Stable env (restoring raise) (SysConf.optimize env alloc t.decoding.irs) s₀ ↔
      (∀ c, .candidate c ∈ SysConf.optimize env alloc t.decoding.irs → c.irs.length < 256) ∧
        ∀ (x : Element (SysConf.optimize env alloc t.decoding.irs)) s, Executes env (restoring raise) x s₀ s →
          inPlaceRun (x.pre.flatMap Seg.irs) x.e.rs1 (s₀.cpu.X x.e.rs1) = s₀.cpu.X x.e.rs1 := by
  obtain ⟨insns, hseq, -⟩ := t.sequence
  have hirs := constoptRun_not_fuse hseq.not_fuse .init
  have hbase (x : Element (SysConf.optimize env alloc t.decoding.irs)) (s : Sys)
      (hexec : Executes env (restoring raise) x s₀ s) :
      s.cpu.X x.e.rs1 = inPlaceRun (x.pre.flatMap Seg.irs) x.e.rs1 (s₀.cpu.X x.e.rs1) :=
    hexec.base hdev (restoring_keeps raise _) (x.not_dest hirs (optimize_candidate x.mem) (hx0 x))
  have hcount (c : LazyCandidate) (hc : .candidate c ∈ SysConf.optimize env alloc t.decoding.irs) :
      c.count.toNat = c.irs.length % 256 := by
    obtain ⟨pre, suf, hsplit⟩ := List.append_of_mem hc
    obtain ⟨m, -, hcount, -, -⟩ := matchPatternMmio_candidate hirs 0 0 ((optimize_candidate hc).symm.trans hsplit)
    rw [hcount, BitVec.toNat_ofNat]
  constructor
  · intro h
    refine ⟨fun c hc => ?_, fun x s hexec => ?_⟩
    · have hlen := h.count c hc
      rw [hcount c hc] at hlen
      omega
    · rw [← hbase x s hexec]
      exact h.base x s hexec
  · rintro ⟨hshort, hplace⟩
    have hkept (x : Element (SysConf.optimize env alloc t.decoding.irs)) (s : Sys)
        (hexec : Executes env (restoring raise) x s₀ s) : s.cpu.X x.e.rs1 = s₀.cpu.X x.e.rs1 :=
      (hbase x s hexec).trans (hplace x s hexec)
    refine ⟨hkept, fun x s hexec => congrArg (· + x.e.imm) (hkept x s hexec), fun c hc => ?_⟩
    rw [hcount c hc]
    exact Nat.mod_eq_of_lt (hshort c hc)

/-- A `SYSTEM_MMIO` build with fusion and without devices. -/
def fusing : SysEnv := { deviceless with extC := true, mopFusion := true }

theorem fusing_leavesRegs : fusing.LeavesRegs := ⟨fun _ _ _ _ => rfl, fun _ _ _ _ _ => rfl⟩

/-- `c.andi s0, 0`, `lw t0, 0(s0)` and `lw t1, 4(s0)` from address 0 on, with 0x100 in `s0`. -/
def clearedBase (pc : Word) : Sys :=
  let mem := Mem.writeW (Mem.writeW (Mem.writeW (fun _ => 0) 0 0x22838801) 4 0x23030004) 8 0x44
  { cpu := { Cpu.zero mem with PC := pc, X := Function.update (fun _ => 0) 8 0x100 } }

def clearBase : Insn := { rs1 := 8, opcode := .candi }

/-- The same with `c.andi s1, 0`. -/
def clearedOther : Sys :=
  let mem := Mem.writeW (Mem.writeW (Mem.writeW (fun _ => 0) 0 0x22838881) 4 0x23030004) 8 0x44
  { cpu := { Cpu.zero mem with X := Function.update (fun _ => 0) 8 0x100 } }

def clearOther : Insn := { rs1 := 9, opcode := .candi }

def loadT0 : Insn := { rd := 5, rs1 := 8, opcode := .lw, pc := 2 }

def loadT1 : Insn := { rd := 6, rs1 := 8, imm := 4, opcode := .lw, pc := 6 }

def loadPair : LazyCandidate := .ofRun true [loadT0, loadT1]

theorem builtBlock_of_map {env : SysEnv} {raise : Raise} {s : Sys} {pcStart pcEnd : Word}
    {irs : List Insn} {page : Bool}
    (h : (sysBlockTranslate env raise 1 s).map (fun r => (r.1.pcStart, r.1.irs, r.1.pcEnd, r.1.pageTerminated)) =
      some (pcStart, irs, pcEnd, page)) :
    ∃ raise fuel s s', sysBlockTranslate env raise fuel s = some (⟨pcStart, irs, pcEnd, page⟩, s') := by
  obtain ⟨⟨d, s'⟩, hrun, hd⟩ := Option.map_eq_some_iff.mp h
  cases hd
  exact ⟨raise, 1, s, s', hrun⟩

set_option maxRecDepth 10000 in
def clearBaseBlock : BuiltBlock fusing where
  decoding := ⟨0, [clearBase, loadT0, loadT1], 10, false⟩
  built := builtBlock_of_map (show (sysBlockTranslate fusing raiseNone 1 (clearedBase 0)).map _ = _ by decide)
  irs_ne := List.cons_ne_nil _ _

set_option maxRecDepth 10000 in
def clearOtherBlock : BuiltBlock fusing where
  decoding := ⟨0, [clearOther, loadT0, loadT1], 10, false⟩
  built := builtBlock_of_map (show (sysBlockTranslate fusing raiseNone 1 clearedOther).map _ = _ by decide)
  irs_ne := List.cons_ne_nil _ _

theorem loadPair_segs (alloc : Word → Bool) {m : Word} (hm : m = 0) {irs : List Insn} (hirs : irs = [loadT0, loadT1]) :
    matchPatternMmio alloc 0 m irs = [.candidate loadPair] := by
  subst hm hirs
  have hrun : lazyRun 0 0 [loadT0, loadT1] = some loadPair := rfl
  have hnil (n : Nat) (m : Word) : matchPatternMmio alloc n m [] = [] := by rw [matchPatternMmio]
  rw [matchPatternMmio, hrun]
  exact congrArg (Seg.candidate loadPair :: ·) (hnil _ _)

theorem clear_segs (alloc : Word → Bool) {ir : Insn} (hir : ir = clearBase ∨ ir = clearOther) :
    matchPatternMmio alloc 0 0 [ir, loadT0, loadT1] = [.node ir, .candidate loadPair] := by
  have hrun : lazyRun 0 0 [ir, loadT0, loadT1] = none := by rcases hir with rfl | rfl <;> rfl
  have hmask : (0 : Word) ||| recordedRegs ir loadT0 [loadT1] ||| regBit (matchAtMmio alloc ir loadT0 [loadT1]).1.rd =
      0 := by
    rcases hir with rfl | rfl
    all_goals simp [recordedRegs, matchAtMmio, matchAt, clearBase, clearOther, regBit]
  rw [matchPatternMmio, hrun]
  rcases hir with rfl | rfl
  all_goals exact congrArg (Seg.node _ :: ·) (loadPair_segs alloc hmask rfl)

/-- The node before the two loads clears another register. -/
theorem stable_iff_clearOther :
    Stable fusing (restoring raiseNone) (SysConf.optimize fusing (fun _ => true) clearOtherBlock.decoding.irs)
      clearedOther := by
  have hsegs : SysConf.optimize fusing (fun _ => true) clearOtherBlock.decoding.irs =
      [.node clearOther, .candidate loadPair] := clear_segs _ (.inr rfl)
  have hx (x : Element (SysConf.optimize fusing (fun _ => true) clearOtherBlock.decoding.irs)) :
      x.pre = [.node clearOther] ∧ x.c = loadPair := by
    have hsplit := hsegs.symm.trans x.segs_eq
    rcases hpre : x.pre with - | ⟨seg, - | ⟨seg', pre⟩⟩
    all_goals rw [hpre] at hsplit
    · cases (List.cons_eq_cons.mp hsplit).1
    · obtain ⟨hseg, hrest⟩ := List.cons_eq_cons.mp hsplit
      exact ⟨congrArg ([·]) hseg.symm, (Seg.candidate.inj (List.cons_eq_cons.mp hrest).1).symm⟩
    · have hrest := (List.cons_eq_cons.mp (List.cons_eq_cons.mp hsplit).2).2
      cases pre <;> cases hrest
  have hmem (x : Element (SysConf.optimize fusing (fun _ => true) clearOtherBlock.decoding.irs)) :
      x.e ∈ loadPair.irs := by
    rw [← (hx x).2, x.irs_eq]
    simp
  have hbase : ∀ ir ∈ loadPair.irs, ir.rs1 = 8 := by decide
  refine (stable_iff fusing_leavesRegs raiseNone _ clearOtherBlock _ fun x h0 => ?_).mpr
    ⟨fun c hc => ?_, fun x s _ => ?_⟩
  · exact absurd ((hbase x.e (hmem x)).symm.trans h0) (by decide)
  · rw [hsegs] at hc
    obtain rfl : c = loadPair := by simpa using hc
    decide
  · rw [(hx x).1, hbase x.e (hmem x)]
    rfl

/-- `c.andi` has its destination in `rs1`, which is not recorded: the loads are registered although it clears their
base. -/
theorem cleared_base_registered :
    ∃ t : BuiltBlock fusing, ¬ Stable fusing (sysRaise fusing 1)
        (SysConf.optimize fusing (fun _ => true) t.decoding.irs)
      (clearedBase 0) := by
  refine ⟨clearBaseBlock, fun h => ?_⟩
  have hsegs : SysConf.optimize fusing (fun _ => true) clearBaseBlock.decoding.irs =
      [.node clearBase, .candidate loadPair] :=
    clear_segs _ (.inl rfl)
  rw [hsegs] at h
  let x : Element [.node clearBase, .candidate loadPair] :=
    ⟨[.node clearBase], loadPair, [], rfl, [], loadT0, [loadT1], rfl⟩
  let s : Sys := { clearedBase 0 with cpu := { (clearedBase 0).cpu with PC := 0 }.setX 8 0 }
  have hrun : Reaches fusing (sysRaise fusing 1) ([[clearBase]].flatten ++ []) (clearedBase 0) s := ⟨0, 0, 1, 2, rfl⟩
  have hbase := h.base x s (.node (.cons (.asIs (.node clearBase)) .nil) (.asIs (.candidate loadPair)) hrun)
  revert hbase
  decide

end Rv32emu
