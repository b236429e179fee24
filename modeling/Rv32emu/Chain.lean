import Rv32emu.BlockHistory
import Rv32emu.FusionSound
import Rv32emu.IllegalInsn
import Rv32emu.NodeStep

/-!
# Blocks are chained at their own addresses

Links are installed by `rv_step` one iteration late, from `prev`, `last_pc` and `is_branch_taken`.
`Conf.Inv` is the invariant of the engine under which every link, every entry of a branch history
table and every slot of the L1 cache names the block at the address it is followed to; it is kept by
every step that raises no illegal-instruction trap (`Conf.Inv.step`), and `tailCall_enters_head` is
what it gives for the tail calls of a whole run.

A block that holds a `wfi` before its tail is left there, so its tail can be given any link; and the
branch history path leaves `last_pc` at a block that ends in an indirect branch, which is never linked.
-/

namespace Rv32emu

/-! ## The nodes of a translated block -/

theorem translateLoop_page {extC : Bool} {fetch : Word → Word} {pEnd : Word} {n : Nat} {pc : Word}
    (h : (translateLoop extC fetch pEnd n pc).2.2 = .page) :
    ∀ ir ∈ (translateLoop extC fetch pEnd n pc).1, ir.opcode.canBranch = false := by
  induction n generalizing pc with
  | zero => simp [translateLoop]
  | succ n ih =>
    unfold translateLoop at h ⊢
    simp only at h ⊢
    split at h
    · cases h
    · rename_i hz
      rw [if_neg hz]
      split at h
      · cases h
      · cases h
      · split_ifs at h ⊢ with hb hp
        · simpa using hb
        · intro x hx
          rcases List.mem_cons.mp hx with rfl | hx
          · simpa using hb
          · exact ih h x hx

theorem constopt_pc (ir : Insn) (info : ConstoptInfo) : (constopt ir info).1.pc = ir.pc := by
  unfold constopt
  generalize constoptRule ir.opcode = f
  cases f <;> simp only [Fold.run] <;> first | rfl | (split <;> rfl)

theorem constoptRun_canBranch {irs : List Insn} (h : ∀ ir ∈ irs, ir.opcode.canBranch = false)
    (info : ConstoptInfo) : ∀ ir ∈ (constoptRun irs info).1, ir.opcode.canBranch = false := by
  induction irs generalizing info with
  | nil => simp [constoptRun]
  | cons x irs ih =>
    intro ir hir
    rcases List.mem_cons.mp hir with rfl | hir
    · rw [(constopt_opcode x info).1]
      exact h x (by simp)
    · exact ih (fun y hy => h y (by simp [hy])) _ ir hir

theorem optimizeConstant_head_pc (irs : List Insn) :
    (optimizeConstant irs).head?.map Insn.pc = irs.head?.map Insn.pc := by
  cases irs with
  | nil => rfl
  | cons ir irs => exact congrArg some (constopt_pc ir .init)

theorem FusedFrom.head_pc {node : Insn} {l : List Insn} (h : FusedFrom node l) :
    l.head?.map Insn.pc = some node.pc := by
  cases h <;> rfl

/-- A fused node that ends a block stands for nodes that end it. -/
theorem FusedFrom.ends {node : Insn} {l : List Insn} (h : FusedFrom node l)
    (hnf : ∀ x ∈ l, x.opcode.isFuse = false) (hends : node.opcode.endsBlock = true) :
    ∃ l' x, l = l' ++ [x] ∧ x.opcode.canBranch = true := by
  cases h with
  | same =>
    refine ⟨[], node, rfl, ?_⟩
    have hf := hnf node (by simp)
    unfold Opcode.endsBlock at hends
    cases hop : node.opcode <;> simp_all [Opcode.isFuse]
  | fuse6 ir next hop hnext => exact ⟨[ir], next, rfl, by rw [hnext]; rfl⟩
  | fuse12 ir next hop hnext => exact ⟨[ir], next, rfl, by rw [hnext]; rfl⟩
  | seq hseq => cases hseq <;> cases hends
  | _ => cases hends

section Groups

variable {gs : List (Insn × List Insn)} (hgs : ∀ g ∈ gs, FusedFrom g.1 g.2)
  (hun : Unfused (gs.flatMap Prod.snd))

include hgs hun

theorem groups_ends_last {pre suf : List (Insn × List Insn)} {g : Insn × List Insn}
    (heq : gs = pre ++ g :: suf) (hends : g.1.opcode.endsBlock = true) : suf = [] := by
  subst heq
  simp only [List.flatMap_append, List.flatMap_cons] at hun
  have hnf : ∀ x ∈ g.2, x.opcode.isFuse = false := fun x hx => hun.not_fuse x (by simp [hx])
  obtain ⟨l, x, hl, hx⟩ := (hgs g (by simp)).ends hnf hends
  have hnil := hun.branch_last (pre.flatMap Prod.snd ++ l) x (suf.flatMap Prod.snd) (by simp [hl]) hx
  rw [List.flatMap_eq_nil_iff] at hnil
  refine List.eq_nil_iff_forall_not_mem.mpr fun g' hg' => ?_
  exact (hgs g' (by simp [hg'])).ne_nil (hnil g' hg')

theorem groups_not_ends (hb : ∀ x ∈ gs.flatMap Prod.snd, x.opcode.canBranch = false)
    {g : Insn × List Insn} (hg : g ∈ gs) : g.1.opcode.endsBlock = false := by
  by_contra hends
  have hmem : ∀ x ∈ g.2, x ∈ gs.flatMap Prod.snd := fun x hx => List.mem_flatMap.mpr ⟨g, hg, hx⟩
  obtain ⟨l, x, hl, hx⟩ := (hgs g hg).ends (fun x hx => hun.not_fuse x (hmem x hx)) (by simpa using hends)
  rw [hb x (hmem x (by simp [hl]))] at hx
  cases hx

end Groups

/-- What `block_translate` guarantees of the nodes of a block: the first one is at the start of the
block, and nothing but the last one ends it. -/
structure Block.Translated (b : Block) : Prop where
  head_pc : b.irs.head?.map Insn.pc = some b.pcStart
  ends_last : ∀ pre ir suf, b.irs = pre ++ ir :: suf → ir.opcode.endsBlock = true → suf = []
  page : b.pageTerminated = true → ∀ ir ∈ b.irs, ir.opcode.endsBlock = false

theorem Block.Translated.ne_nil {b : Block} (h : b.Translated) : b.irs ≠ [] := by
  intro hnil
  have := h.head_pc
  rw [hnil] at this
  cases this

theorem matchPattern_head_pc (alloc : Word → Bool) (irs : List Insn) :
    (matchPattern alloc irs).head?.map Insn.pc = irs.head?.map Insn.pc := by
  match irs with
  | [] => rw [matchPattern]
  | [ir] => rw [matchPattern]
  | ir :: next :: rest =>
    rw [matchPattern]
    exact (matchAt_fusedFrom alloc ir next rest).head_pc.symm

theorem blockTranslate_translated (extC : Bool) (fetch : Word → Word) (pc : Word) (alloc : Word → Bool)
    (hne : (blockTranslate extC fetch pc).1 ≠ []) :
    Block.Translated
      { pcStart := pc, pageTerminated := (blockTranslate extC fetch pc).2.2 = .page,
        irs := matchPattern alloc (optimizeConstant (blockTranslate extC fetch pc).1) } := by
  have hblock : IrBlock extC pc (blockTranslate extC fetch pc).1 := translateLoop_irBlock ..
  have hun := hblock.optimizeConstant_unfused
  have hgs := matchGroups_fusedFrom alloc (optimizeConstant (blockTranslate extC fetch pc).1)
  rw [← matchGroups_snd alloc (optimizeConstant (blockTranslate extC fetch pc).1)] at hun
  refine ⟨?_, ?_, ?_⟩
  · rw [matchPattern_head_pc, optimizeConstant_head_pc]
    obtain ⟨ir, irs, hirs⟩ := List.exists_cons_of_ne_nil hne
    rw [hirs] at hblock ⊢
    obtain ⟨_, _, _, rfl, -, -⟩ := hblock.head
    rfl
  · intro pre ir suf heq hends
    simp only [← matchGroups_fst] at heq
    obtain ⟨gpre, gsuf, hg, rfl, hsuf⟩ := List.map_eq_append_iff.mp heq
    obtain ⟨g, gsuf', rfl, rfl, rfl⟩ := List.map_eq_cons_iff.mp hsuf
    rw [groups_ends_last hgs hun hg hends]
    rfl
  · intro hpage ir hir
    simp only [← matchGroups_fst] at hir
    obtain ⟨g, hg, rfl⟩ := List.mem_map.mp hir
    refine groups_not_ends hgs hun ?_ hg
    rw [matchGroups_snd]
    exact constoptRun_canBranch (translateLoop_page (of_decide_eq_true hpage)) .init

/-! ## Coherent engines -/

/-- The number of bytes a list of nodes stands for. -/
def nodesLen (irs : List Insn) : Word := (irs.map Insn.nodeLen).sum

namespace Block

/-- `block->ir_tail`. -/
def tail (b : Block) : Insn := b.irs.getLastD {}

def tailPc (b : Block) : Word := b.pcStart + nodesLen b.irs.dropLast

/-- The block is always left at a `wfi` before its tail. -/
def Sleeps (b : Block) : Prop := ∃ ir ∈ b.irs.dropLast, ir.opcode = .wfi

theorem SameCode.tail {b b' : Block} (h : b.SameCode b') : b'.tail = b.tail := by
  unfold Block.tail
  rw [h.irs]

/-- The tail has been run and `rv->PC` follows it, as far as the links of the block matter. -/
def FollowedBy (b : Block) (s : Cpu) : Prop := b.Sleeps ∨ Follows b.tail b.tailPc s

end Block

namespace BlockMap

/-- `r` is a block that starts at `pc`. -/
def At (e : Engine) (pc : Word) (r : Ref) : Prop := ∃ b, e.block r = some b ∧ b.pcStart = pc

/-- Every link that a handler can follow names the block at the address it is followed to. -/
structure Linked (e : Engine) (b : Block) : Prop where
  translated : b.Translated
  taken : ∀ r, b.links.taken = some r → ¬b.Sleeps → b.tail.opcode.tailKind ≠ .closed →
    e.At (b.tail.takenTarget b.tailPc) r
  untaken : ∀ r, b.links.untaken = some r → ¬b.Sleeps → b.tail.opcode.tailKind = .cond →
    e.At (b.tail.untakenTarget b.tailPc) r
  table : ∀ i r, (b.branchTable i).2 = some r → e.At (b.branchTable i).1 r

structure Coherent (extC : Bool) (e : Engine) : Prop where
  linked : ∀ r b, e.block r = some b → e.Linked b
  index_iff : ∀ pc r, e.index pc = some r ↔ e.At pc r
  l1_some : ∀ i r, (e.l1 i).2 = some r → e.At (e.l1 i).1 r
  /-- The L1 cache hides no block. -/
  l1_none : ∀ pc, (e.l1 (l1Index extC pc)).1 = pc → (e.l1 (l1Index extC pc)).2 = none →
    e.index pc = none
  fresh : ∀ r, e.fresh ≤ r → e.block r = none

variable {extC : Bool} {e e' : Engine}

theorem Coherent.unique (h : e.Coherent extC) {pc : Word} {r r' : Ref} (hr : e.At pc r)
    (hr' : e.At pc r') : r = r' := by
  have heq := ((h.index_iff pc r).mpr hr).symm.trans ((h.index_iff pc r').mpr hr')
  exact Option.some.inj heq

theorem Linked.mono {b : Block} (h : e.Linked b) (hat : ∀ pc r, e.At pc r → e'.At pc r) : e'.Linked b where
  translated := h.translated
  taken r hr hs hk := hat _ _ (h.taken r hr hs hk)
  untaken r hr hs hk := hat _ _ (h.untaken r hr hs hk)
  table i r hr := hat _ _ (h.table i r hr)

theorem coherent_empty (h : e.block = fun _ => none) (hi : e.index = fun _ => none)
    (hl : e.l1 = fun _ => (0xffffffff, none)) : e.Coherent extC where
  linked r b hr := by
    rw [h] at hr
    cases hr
  index_iff pc r := by simp [At, h, hi]
  l1_some i r hr := by
    rw [hl] at hr
    cases hr
  l1_none pc _ _ := by rw [hi]
  fresh r _ := by rw [h]

/-! ## The operations of the engine -/

/-- What `block_lookup_or_find` returns, and that it changes the L1 cache only. -/
theorem blockLookupOrFind_spec (h : e.Coherent extC) (pc : Word) :
    ∃ l1, (e.blockLookupOrFind extC pc).2 = { e with l1 } ∧
      Coherent extC { e with l1 } ∧ (e.blockLookupOrFind extC pc).1 = e.index pc := by
  unfold BlockMap.blockLookupOrFind
  simp only
  split
  · rename_i htag
    refine ⟨e.l1, rfl, h, ?_⟩
    rcases hptr : (e.l1 (l1Index extC pc)).2 with _ | r
    · exact (h.l1_none pc htag hptr).symm
    · have hat := h.l1_some _ r hptr
      rw [htag] at hat
      exact ((h.index_iff pc r).mpr hat).symm
  · rename_i htag
    rcases hidx : e.index pc with _ | r
    · exact ⟨e.l1, rfl, h, rfl⟩
    · refine ⟨_, rfl, ⟨fun q b hq => (h.linked q b hq).mono fun _ _ hat => hat, h.index_iff,
        fun i q hq => ?_, fun pc' hpc' hnone => ?_, h.fresh⟩, rfl⟩
      · by_cases hi : i = l1Index extC pc
        · subst hi
          simp only [Function.update_self] at hq ⊢
          obtain rfl := Option.some.inj hq
          exact (h.index_iff pc r).mp hidx
        · simp only [Function.update_of_ne hi] at hq ⊢
          exact h.l1_some i q hq
      · by_cases hi : l1Index extC pc' = l1Index extC pc
        · simp only [hi, Function.update_self] at hnone
          cases hnone
        · simp only [Function.update_of_ne hi] at hpc' hnone
          exact h.l1_none pc' hpc' hnone

theorem at_blockInsert (h : e.Coherent extC) (b : Block) (pc : Word) (r : Ref) :
    (e.blockInsert extC b.pcStart b).At pc r ↔ (r = e.fresh ∧ b.pcStart = pc) ∨ e.At pc r := by
  unfold At BlockMap.blockInsert
  by_cases hr : r = e.fresh
  · subst hr
    simp [h.fresh _ (le_refl _)]
  · simp [hr]

theorem Coherent.blockInsert (h : e.Coherent extC) {b : Block} (hb : b.Translated)
    (hlinks : b.links = {}) (htable : b.branchTable = fun _ => (0xffffffff, none))
    (hnew : e.index b.pcStart = none) : (e.blockInsert extC b.pcStart b).Coherent extC := by
  have hat := at_blockInsert h b
  have hindex : (e.blockInsert extC b.pcStart b).index = Function.update e.index b.pcStart (some e.fresh) := by
    simp [BlockMap.blockInsert, hnew]
  have hmono : ∀ pc r, e.At pc r → (e.blockInsert extC b.pcStart b).At pc r := fun pc r hr =>
    (hat pc r).mpr (.inr hr)
  refine ⟨fun r b' hr => ?_, fun pc r => ?_, fun i r hr => ?_, fun pc htag hnone => ?_, fun r hr => ?_⟩
  · by_cases hfresh : r = e.fresh
    · subst hfresh
      simp only [BlockMap.blockInsert, Function.update_self, Option.some.injEq] at hr
      subst hr
      refine ⟨hb, ?_, ?_, ?_⟩
      all_goals simp [hlinks, htable]
    · simp only [BlockMap.blockInsert, Function.update_of_ne hfresh] at hr
      exact (h.linked r b' hr).mono hmono
  · rw [hat, hindex]
    by_cases hpc : pc = b.pcStart
    · subst hpc
      have hno : ¬e.At b.pcStart r := by
        rw [← h.index_iff, hnew]
        simp
      simp [hno, eq_comm]
    · rw [Function.update_of_ne hpc, h.index_iff]
      simp [Ne.symm hpc]
  · by_cases hi : i = l1Index extC b.pcStart
    · subst hi
      simp only [BlockMap.blockInsert, Function.update_self, Option.some.injEq] at hr ⊢
      exact (hat _ _).mpr (.inl ⟨hr.symm, rfl⟩)
    · simp only [BlockMap.blockInsert, Function.update_of_ne hi] at hr
      have : (e.blockInsert extC b.pcStart b).l1 i = e.l1 i := by simp [BlockMap.blockInsert, Function.update_of_ne hi]
      rw [this]
      exact hmono _ _ (h.l1_some i r hr)
  · by_cases hi : l1Index extC pc = l1Index extC b.pcStart
    · simp only [BlockMap.blockInsert, hi, Function.update_self] at hnone
      cases hnone
    · simp only [BlockMap.blockInsert, Function.update_of_ne hi] at htag hnone
      have hpc : pc ≠ b.pcStart := fun heq => hi (by rw [heq])
      rw [hindex, Function.update_of_ne hpc]
      exact h.l1_none pc htag hnone
  · have hlt : e.fresh < r := hr
    simp only [BlockMap.blockInsert, Function.update_of_ne hlt.ne']
    exact h.fresh r hlt.le

theorem at_modify (f : Block → Block) (hf : ∀ b, (f b).pcStart = b.pcStart) (q : Ref) (pc : Word) (r : Ref) :
    (e.modify q f).At pc r ↔ e.At pc r := by
  unfold At BlockMap.modify
  by_cases hr : r = q
  · subst hr
    rcases e.block r with _ | b
    · simp
    · simp [hf]
  · simp [hr]

theorem Coherent.modify (h : e.Coherent extC) {f : Block → Block} (hf : ∀ b, (f b).pcStart = b.pcStart)
    {q : Ref} (hq : ∀ b, e.block q = some b → e.Linked (f b)) : (e.modify q f).Coherent extC := by
  have hat := at_modify (e := e) f hf q
  refine ⟨fun r b hr => ?_, fun pc r => ?_, fun i r hr => ?_, h.l1_none, fun r hr => ?_⟩
  · by_cases hrq : r = q
    · subst hrq
      simp only [BlockMap.modify, Function.update_self, Option.map_eq_some_iff] at hr
      obtain ⟨b0, hb0, rfl⟩ := hr
      exact (hq b0 hb0).mono fun pc r => (hat pc r).mpr
    · simp only [BlockMap.modify, Function.update_of_ne hrq] at hr
      exact (h.linked r b hr).mono fun pc r => (hat pc r).mpr
  · rw [hat]
    exact h.index_iff pc r
  · rw [hat]
    exact h.l1_some i r hr
  · have hnone := h.fresh r hr
    by_cases hrq : r = q
    · subst hrq
      simp [BlockMap.modify, hnone]
    · simpa [BlockMap.modify, Function.update_of_ne hrq] using hnone

end BlockMap

/-- What `block_find_or_translate` does when it raises no trap: a block found or made for `rv->PC` in a
map that has kept `prev` or lost all its blocks. -/
structure Found (extC : Bool) (e : Engine) (s : Cpu) (out : Option Ref × Engine × Cpu × List Event) :
    Prop where
  coherent : out.2.1.Coherent extC
  result : ∀ r, out.1 = some r → out.2.1.At s.PC r
  cpu : (out.1 = none ∧ out.2.2.1.aborted = true) ∨ out.2.2.1 = s
  prev : ∀ p b, out.2.1.prev = some p → e.block p = some b → out.2.1.block p = some b
  prev_eq : out.2.1.prev = none ∨ out.2.1.prev = e.prev
  quiet : out.2.2.2 = []

theorem evict_spec {extC : Bool} {e : Engine} {pc : Word} (size : Nat) (h : e.Coherent extC)
    (hnew : e.index pc = none) :
    ∃ e2, (if mapFull size then { e.blockMapClear with prev := none } else e) = e2 ∧
      e2.Coherent extC ∧ e2.index pc = none ∧
      (∀ p b, e2.prev = some p → e.block p = some b → e2.block p = some b) ∧
      (e2.prev = none ∨ e2.prev = e.prev) := by
  split
  · exact ⟨_, rfl, BlockMap.coherent_empty rfl rfl rfl, rfl, (fun _ _ hp => nomatch hp), .inl rfl⟩
  · exact ⟨e, rfl, h, hnew, fun p b _ hb => hb, .inr rfl⟩

theorem blockFindOrTranslate_found {env : Env} {host : Host} {e : Engine} (h : e.Coherent env.extC) (s : Cpu)
    (hill : ∀ epc, Event.illegal epc ∉ (blockFindOrTranslate env host e s).2.2.2) :
    Found env.extC e s (blockFindOrTranslate env host e s) := by
  obtain ⟨l1, he, hco, hidx⟩ := BlockMap.blockLookupOrFind_spec h s.PC
  unfold blockFindOrTranslate at hill ⊢
  rcases hlook : e.blockLookupOrFind env.extC s.PC with ⟨_ | r, e1⟩
  all_goals
    rw [hlook] at he hidx
    simp only at he hidx
    subst he
  · simp only [hlook] at hill ⊢
    obtain ⟨e2, he2, hco2, hnew, hprev, hprev_eq⟩ := evict_spec e.size hco hidx.symm
    simp only [he2] at hill ⊢
    split at hill
    · rename_i halloc
      rw [if_pos halloc]
      exact ⟨hco2, by simp, .inr rfl, hprev, hprev_eq, rfl⟩
    · rename_i halloc
      rw [if_neg halloc]
      have hraise : raiseIllegal env s (blockTranslate env.extC s.ifetch s.PC).2.2 = (s, []) := by
        unfold raiseIllegal
        split
        · rename_i insn hstop
          refine absurd ?_ (hill s.PC)
          simp only [raiseIllegal, hstop]
          split_ifs <;> simp
        · rfl
      simp only [hraise]
      split_ifs with habort hempty
      · exact ⟨hco2, by simp, .inl ⟨rfl, rfl⟩, hprev, hprev_eq, rfl⟩
      · exact ⟨hco2, by simp, .inr rfl, hprev, hprev_eq, rfl⟩
      · refine ⟨hco2.blockInsert (blockTranslate_translated _ _ _ _ hempty) rfl rfl hnew, ?_, .inr rfl, ?_,
          hprev_eq, rfl⟩
        · intro r hr
          obtain rfl := Option.some.inj hr
          exact (BlockMap.at_blockInsert hco2 _ _ _).mpr (.inl ⟨rfl, rfl⟩)
        · intro p b hp hb
          have hlt : p ≠ e2.fresh := by
            rintro rfl
            have := hprev _ b hp hb
            rw [hco2.fresh _ (le_refl _)] at this
            cases this
          simp only [BlockMap.blockInsert, Function.update_of_ne hlt]
          exact hprev p b hp hb
  · exact ⟨hco, fun q hq => by obtain rfl := Option.some.inj hq; exact (hco.index_iff _ _).mp hidx.symm,
      .inr rfl, fun p b _ hb => hb, .inr rfl, rfl⟩

/-! ## Linking -/

theorem Block.link_same (b : Block) (taken : Bool) (r : Ref) :
    (b.link taken r).pcStart = b.pcStart ∧ (b.link taken r).irs = b.irs ∧
      (b.link taken r).pageTerminated = b.pageTerminated ∧
      (b.link taken r).branchTable = b.branchTable := by
  unfold Block.link
  simp only
  split_ifs <;> exact ⟨rfl, rfl, rfl, rfl⟩

theorem Block.Translated.irs_eq {b : Block} (h : b.Translated) : b.irs = b.irs.dropLast ++ [b.tail] := by
  unfold Block.tail
  rw [List.getLastD_eq_getLast?, List.getLast?_eq_some_getLast h.ne_nil, Option.getD_some,
    List.dropLast_append_getLast]

theorem Block.Translated.tail_mem {b : Block} (h : b.Translated) : b.tail ∈ b.irs := by
  rw [h.irs_eq]
  simp

theorem Opcode.endsBlock_of_cond {op : Opcode} (h : op.tailKind = .cond) : op.endsBlock = true := by
  cases op <;> first | rfl | cases h

theorem Opcode.not_cond_of_isDirectBranch {op : Opcode} (h : op.isDirectBranch = true) :
    op.tailKind ≠ .cond := by
  cases op <;> first | decide | cases h

/-- The link that is installed is the one a conditional branch has followed. -/
theorem Block.link_cases {b : Block} (hb : b.Translated) (taken : Bool) (r : Ref) :
    (∀ q, (b.link taken r).links.taken = some q → b.links.taken = some q ∨
      (q = r ∧ (b.tail.opcode.tailKind = .cond → taken = true))) ∧
    (∀ q, (b.link taken r).links.untaken = some q → b.links.untaken = some q ∨
      (q = r ∧ taken = false)) := by
  have hor {o : Option Ref} {q : Ref} (h : o.or (some r) = some q) : o = some q ∨ q = r := by
    rcases o with _ | o
    · exact .inr (Option.some.inj h).symm
    · exact .inl h
  unfold Block.link
  simp only
  split_ifs with hpage hun htaken hdirect
  · have hcond : b.tail.opcode.tailKind ≠ .cond := fun hk => by
      have := Opcode.endsBlock_of_cond hk
      rw [hb.page hpage _ hb.tail_mem] at this
      cases this
    exact ⟨fun q hq => (hor hq).imp_right fun h => ⟨h, fun hk => absurd hk hcond⟩, fun q hq => .inl hq⟩
  · exact ⟨fun q hq => (hor hq).imp_right fun h => ⟨h, fun _ => htaken⟩, fun q hq => .inl hq⟩
  · exact ⟨fun q hq => .inl hq, fun q hq => (hor hq).imp_right fun h => ⟨h, by simpa using htaken⟩⟩
  · have hcond := Opcode.not_cond_of_isDirectBranch hdirect
    exact ⟨fun q hq => (hor hq).imp_right fun h => ⟨h, fun hk => absurd hk hcond⟩, fun q hq => .inl hq⟩
  · exact ⟨fun q hq => .inl hq, fun q hq => .inl hq⟩

/-- **The block found after a block is linked where the tail would go.** -/
theorem BlockMap.Linked.link {e : Engine} {b : Block} (h : e.Linked b) {s : Cpu} {r : Ref}
    (hr : e.At s.PC r) (hfollow : b.FollowedBy s) : e.Linked (b.link s.isBranchTaken r) := by
  obtain ⟨hpc, hirs, hpage, htable⟩ := b.link_same s.isBranchTaken r
  obtain ⟨htaken, huntaken⟩ := Block.link_cases h.translated s.isBranchTaken r
  have htail : (b.link s.isBranchTaken r).tail = b.tail := by simp only [Block.tail, hirs]
  have htailPc : (b.link s.isBranchTaken r).tailPc = b.tailPc := by simp only [Block.tailPc, hirs, hpc]
  have hsleeps : (b.link s.isBranchTaken r).Sleeps ↔ b.Sleeps := by simp only [Block.Sleeps, hirs]
  refine ⟨⟨?_, ?_, ?_⟩, fun q hq hs hk => ?_, fun q hq hs hk => ?_, ?_⟩
  · rw [hirs, hpc]
    exact h.translated.head_pc
  · rw [hirs]
    exact h.translated.ends_last
  · rw [hirs, hpage]
    exact h.translated.page
  · rw [htail] at hk
    rw [hsleeps] at hs
    rw [htail, htailPc]
    obtain hq | ⟨rfl, hcond⟩ := htaken q hq
    · exact h.taken q hq hs hk
    · have hf := hfollow.resolve_left hs
      unfold Follows at hf
      cases hkind : b.tail.opcode.tailKind <;> simp only [hkind] at hf hk hcond
      case direct | fall => rwa [← hf]
      case cond =>
        rw [hcond trivial, if_pos rfl] at hf
        rwa [← hf]
      case closed => exact absurd rfl hk
  · rw [htail] at hk
    rw [hsleeps] at hs
    rw [htail, htailPc]
    obtain hq | ⟨rfl, hflag⟩ := huntaken q hq
    · exact h.untaken q hq hs hk
    · have hf := hfollow.resolve_left hs
      simp only [Follows, hk, hflag] at hf
      rw [if_neg (by decide)] at hf
      rwa [← hf]
  · rw [htable]
    exact h.table

/-! ## Traps -/

theorem vectorTo_lastPc (base mode cause : Word) (s : Cpu) :
    (vectorTo base mode cause s).lastPc = s.lastPc := by
  unfold vectorTo
  split_ifs <;> rfl

theorem emulateMisaligned_lastPc {s s' : Cpu} {ir : Insn} {addr : Word}
    (h : emulateMisalignedLoad s ir addr = some s' ∨ emulateMisalignedStore s ir addr = some s') :
    s'.lastPc = s.lastPc := by
  rcases h with h | h
  · unfold emulateMisalignedLoad at h
    simp only at h
    split at h <;> cases h <;> rfl
  · unfold emulateMisalignedStore at h
    simp only at h
    split_ifs at h <;> split at h <;> cases h <;> rfl

theorem trapDefaultHandler_lastPc (env : Env) (s : Cpu) : (trapDefaultHandler env s).lastPc = s.lastPc := by
  have hgetD (o : Option Cpu) (h : ∀ s', o = some s' → s'.lastPc = s.lastPc) :
      (o.getD s).lastPc = s.lastPc := by
    rcases o with _ | s'
    · rfl
    · exact h s' rfl
  unfold trapDefaultHandler
  split
  · simp only
    split
    · rfl
    · split
      · rfl
      · rfl
      · refine hgetD _ fun s' hs' => ?_
        split at hs'
        · exact emulateMisaligned_lastPc (.inl hs')
        · exact emulateMisaligned_lastPc (.inr hs')
  · rfl

theorem raise_lastPc (env : Env) (cause : Cause) (tval : Word) (s : Cpu) :
    (raise env cause tval s).lastPc = s.lastPc := by
  have hset : (setCauseAndTval cause tval s).lastPc = s.lastPc := by
    unfold setCauseAndTval
    split <;> rfl
  rw [← hset]
  unfold raise trapHandler
  split_ifs
  · exact vectorTo_lastPc ..
  · exact trapDefaultHandler_lastPc ..
  · exact vectorTo_lastPc ..

/-- A trap leaves `last_pc` alone, and its handler returns `false` on a misaligned access. -/
theorem Trap.take_spec (env : Env) (t : Trap) (s : Cpu) :
    (t.take env s).1.lastPc = s.lastPc ∧ (t.after = .retFalse → (t.take env s).2 = false) := by
  have hl := raise_lastPc env t.cause t.tval s
  unfold Trap.take
  simp only
  split
  · exact ⟨hl, fun _ => rfl⟩
  · rename_i h
    exact ⟨hl, fun h' => by rw [h] at h'; cases h'⟩
  · rename_i h
    exact ⟨hl, fun h' => by rw [h] at h'; cases h'⟩

/-! ## Configurations -/

namespace Conf

/-- A handler is about to run the first of the nodes `rest` of block `cur` with `pc`. -/
structure Running (e : Engine) (s : Cpu) (cur : Ref) (rest : List Insn) (pc : Word) (b : Block)
    (pre : List Insn) : Prop where
  block : e.block cur = some b
  irs : b.irs = pre ++ rest
  rest_ne : rest ≠ []
  awake : ∀ ir ∈ pre, ir.opcode ≠ .wfi
  pc : pc = b.pcStart + nodesLen pre
  last : s.lastPc = b.pcStart ∨
    ∃ r a, e.block r = some a ∧ a.pcStart = s.lastPc ∧ a.tail.opcode.isIndirectBranch = true

/-- The invariant of `rv_step`. -/
structure Inv (extC : Bool) (c : Conf) : Prop where
  coherent : c.eng.Coherent extC
  loc : match c.loc with
    | .left | .head => c.eng.prev ≠ none →
      ∃ r b, c.eng.block r = some b ∧ b.pcStart = c.cpu.lastPc ∧ b.FollowedBy c.cpu
    | .run _ cur rest _ pc => ∃ b pre, Running c.eng c.cpu cur rest pc b pre
    | .dead => True

/-- Every tail call among some events enters the head of a block at its own address. -/
def EntersHead (e : Engine) (events : List Event) : Prop :=
  ∀ r pc, .tailCall r pc ∈ events → e.At pc r

/-! ### `rv_step` between two blocks -/

section Dispatch

variable {env : Env} {host : Host} {c : Conf}

/-- After `prev` has been looked up again it is the block at `last_pc`. -/
theorem refreshPrev_spec (h : c.eng.Coherent env.extC) :
    (c.refreshPrev env).Coherent env.extC ∧ (∀ pc r, (c.refreshPrev env).At pc r ↔ c.eng.At pc r) ∧
      (c.refreshPrev env).block = c.eng.block ∧
      ∀ p, (c.refreshPrev env).prev = some p →
        c.eng.prev ≠ none ∧ c.eng.At c.cpu.lastPc p := by
  unfold refreshPrev
  rcases hprev : c.eng.prev with _ | p
  · exact ⟨h, fun _ _ => Iff.rfl, rfl, fun p hp => by rw [hprev] at hp; cases hp⟩
  · simp only
    split
    · rename_i hany
      refine ⟨h, fun _ _ => Iff.rfl, rfl, fun q hq => ⟨by simp, ?_⟩⟩
      rw [hprev] at hq
      obtain rfl := Option.some.inj hq
      obtain ⟨b, hb, hpc⟩ := (Option.any_eq_true _ _).mp hany
      exact ⟨b, hb, of_decide_eq_true hpc⟩
    · obtain ⟨l1, he, hco, hidx⟩ := BlockMap.blockLookupOrFind_spec h c.cpu.lastPc
      rw [he, hidx]
      refine ⟨⟨fun r b hr => (hco.linked r b hr).mono fun _ _ hat => hat, hco.index_iff, hco.l1_some,
        hco.l1_none, hco.fresh⟩, fun _ _ => Iff.rfl, rfl, fun q hq => ⟨by simp, (h.index_iff _ _).mp hq⟩⟩

/-- **The linking step.** -/
theorem Inv.dispatch (h : c.Inv env.extC) (hloc : c.loc = .head)
    (hill : ∀ epc, Event.illegal epc ∉ (c.dispatch env host).2) :
    (c.dispatch env host).1.Inv env.extC ∧ (c.dispatch env host).2 = [] := by
  obtain ⟨hco, hat, hblock, hprev⟩ := refreshPrev_spec h.coherent
  have hret := h.loc
  rw [hloc] at hret
  -- the events of the iteration are those of `block_find_or_translate`
  have hevents : (c.dispatch env host).2 =
      (blockFindOrTranslate env host (c.refreshPrev env) c.cpu).2.2.2 := by
    unfold Conf.dispatch
    rcases blockFindOrTranslate env host (c.refreshPrev env) c.cpu with ⟨_ | r, e, s, events⟩ <;> simp only
    · split <;> rfl
    · split <;> rfl
  rw [hevents] at hill ⊢
  have hfound := blockFindOrTranslate_found hco c.cpu hill
  refine ⟨?_, hfound.quiet⟩
  -- `prev`, if it is still there, is the block that `rv->PC` follows
  have hfollow : ∀ p, (blockFindOrTranslate env host (c.refreshPrev env) c.cpu).2.1.prev = some p →
      ∃ b, (blockFindOrTranslate env host (c.refreshPrev env) c.cpu).2.1.block p = some b ∧
        b.pcStart = c.cpu.lastPc ∧ b.FollowedBy c.cpu := by
    intro p hp
    have hp0 : (c.refreshPrev env).prev = some p := by
      rcases hfound.prev_eq with hnone | heq
      · rw [hnone] at hp
        cases hp
      · rw [← heq, hp]
    obtain ⟨hne, b, hb, hpc⟩ := hprev p hp0
    obtain ⟨r, b', hb', hpc', hfollow⟩ := hret hne
    obtain rfl := h.coherent.unique ⟨b, hb, hpc⟩ ⟨b', hb', hpc'⟩
    rw [hb] at hb'
    obtain rfl := Option.some.inj hb'
    exact ⟨b, hfound.prev p b hp (by rw [hblock, hb]), hpc, hfollow⟩
  unfold Conf.dispatch
  generalize blockFindOrTranslate env host (c.refreshPrev env) c.cpu = out at hfound hfollow ⊢
  obtain ⟨_ | r, e, s, events⟩ := out
  · simp only
    split
    · exact ⟨hfound.coherent, trivial⟩
    · rename_i hlive
      obtain rfl : s = c.cpu := hfound.cpu.resolve_left fun h => hlive h.2
      refine ⟨hfound.coherent, fun hne => ?_⟩
      obtain ⟨p, hp⟩ := Option.ne_none_iff_exists'.mp hne
      exact ⟨p, hfollow p hp⟩
  · obtain rfl : s = c.cpu := hfound.cpu.resolve_left fun h => nomatch h.1
    obtain ⟨b, hb, hpc⟩ := hfound.result r rfl
    have hlinked := hfound.coherent.linked r b hb
    have hb' : e.block r = some b := hb
    simp only [hb']
    rcases hp : e.prev with _ | p
    · exact ⟨hfound.coherent, b, [], hb, rfl, hlinked.translated.ne_nil, by simp, by simp [nodesLen, hpc],
        .inl hpc.symm⟩
    · obtain ⟨a, ha, -, hfol⟩ := hfollow p hp
      have hsame := fun b : Block => b.link_same c.cpu.isBranchTaken r
      refine ⟨hfound.coherent.modify (fun b => (hsame b).1) fun a' ha' => ?_, ?_⟩
      · rw [ha] at ha'
        obtain rfl := Option.some.inj ha'
        exact (hfound.coherent.linked p a ha).link ⟨b, hb, hpc⟩ hfol
      · obtain ⟨b', hb', hcode⟩ :=
          BlockMap.modify_of_block .refl (fun b => b.sameCode_link c.cpu.isBranchTaken r) (q := p) hb
        refine ⟨b', [], hb', hcode.irs, hlinked.translated.ne_nil, by simp, ?_, .inl ?_⟩
        · rw [hcode.pcStart, hpc]
          simp [nodesLen]
        · rw [hcode.pcStart, hpc]

end Dispatch

/-! ### Handlers -/

section Handlers

variable {env : Env} {host : Host} {c : Conf} {disp cur r : Ref} {b : Block} {pre : List Insn}

theorem handlerReturned_inv {extC : Bool} (disp : Ref) (ok : Bool) (hco : c.eng.Coherent extC)
    (hret : ok = true → ∃ r b, c.eng.block r = some b ∧ b.pcStart = c.cpu.lastPc ∧ b.FollowedBy c.cpu) :
    (c.handlerReturned disp ok).Inv extC := by
  have hprev (p : Option Ref) : BlockMap.Coherent extC { c.eng with prev := p } :=
    ⟨fun r b hr => (hco.linked r b hr).mono fun _ _ hat => hat, hco.index_iff, hco.l1_some, hco.l1_none,
      hco.fresh⟩
  unfold handlerReturned
  split
  case isTrue hok => exact ⟨hprev _, fun _ => hret hok⟩
  case isFalse => exact ⟨hprev _, fun h => absurd rfl h⟩

theorem enter_inv {extC : Bool} {cycle : BitVec 64} {pc : Word} (hco : c.eng.Coherent extC)
    (hat : c.eng.At pc r)
    (hlast : c.cpu.lastPc = pc ∨
      ∃ r a, c.eng.block r = some a ∧ a.pcStart = c.cpu.lastPc ∧ a.tail.opcode.isIndirectBranch = true) :
    (c.enter disp r cycle pc).1.Inv extC ∧ EntersHead (c.enter disp r cycle pc).1.eng (c.enter disp r cycle pc).2 := by
  obtain ⟨b, hb, hpc⟩ := hat
  unfold enter
  simp only [hb]
  refine ⟨⟨hco, b, [], hb, rfl, (hco.linked r b hb).translated.ne_nil, by simp, by simp [nodesLen, hpc],
    by rwa [hpc]⟩, ?_⟩
  intro q pc' hmem
  simp only [List.mem_singleton, Event.tailCall.injEq] at hmem
  obtain ⟨rfl, rfl⟩ := hmem
  exact ⟨b, hb, hpc⟩

/-- The branch history table of the tail of `cur`. -/
theorem lookupBranch_inv {extC : Bool} {cycle : BitVec 64} {pc : Word} (hco : c.eng.Coherent extC)
    (hcur : c.eng.block cur = some b)
    (hlast : ∃ r a, c.eng.block r = some a ∧ a.pcStart = c.cpu.lastPc ∧
      a.tail.opcode.isIndirectBranch = true) :
    (c.lookupBranch disp cur cycle pc).1.Inv extC ∧
      EntersHead (c.lookupBranch disp cur cycle pc).1.eng (c.lookupBranch disp cur cycle pc).2 := by
  unfold lookupBranch
  simp only [hcur]
  split
  · rename_i r hentry
    split at hentry
    · rename_i htag
      have hat := (hco.linked cur b hcur).table _ _ hentry
      rw [htag] at hat
      exact enter_inv hco hat (.inr hlast)
    · cases hentry
  · rename_i r hentry hidx
    have hat : c.eng.At pc r := (hco.index_iff pc r).mp hidx
    have hsame : ∀ b : Block, (b.recordBranch ((pc >>> 2).setWidth 4) pc r).pcStart = b.pcStart :=
      fun _ => rfl
    refine enter_inv (hco.modify hsame fun b' hb' => ?_) ((BlockMap.at_modify _ hsame cur pc r).mpr hat) ?_
    · have h := hco.linked cur b' hb'
      refine ⟨⟨h.translated.head_pc, h.translated.ends_last, h.translated.page⟩, h.taken, h.untaken,
        fun i q hq => ?_⟩
      by_cases hi : i = (pc >>> 2).setWidth 4
      · subst hi
        simp only [Block.recordBranch, Function.update_self, Option.some.injEq] at hq ⊢
        rwa [← hq]
      · simp only [Block.recordBranch, Function.update_of_ne hi] at hq ⊢
        exact h.table i q hq
    · obtain ⟨q, a, ha, hpc, hind⟩ := hlast
      have hcode (b : Block) : b.SameCode (b.recordBranch ((pc >>> 2).setWidth 4) pc r) := ⟨rfl, rfl⟩
      obtain ⟨a', ha', hsame'⟩ := BlockMap.modify_of_block .refl hcode (q := cur) ha
      exact .inr ⟨q, a', ha', hsame'.pcStart.trans hpc, by rw [hsame'.tail, hind]⟩
  · refine ⟨handlerReturned_inv (c := { c with cpu := c.cpu.save cycle pc }) disp true hco fun _ => ?_,
      by simp [EntersHead]⟩
    obtain ⟨q, a, ha, hpc, hind⟩ := hlast
    exact ⟨q, a, ha, hpc, .inr (.of_closed (Opcode.isIndirectBranch_closed hind).2 _ _)⟩

theorem entersHead_exec {e : Engine} {events : List Event} {ir : Insn} {pc : Word}
    (h : EntersHead e events) : EntersHead e (.exec ir pc :: events) := by
  intro r pc' hmem
  rcases List.mem_cons.mp hmem with heq | hmem
  · cases heq
  · exact h r pc' hmem

/-- **One handler.** -/
theorem Inv.stepRun {rest : List Insn} {cycle : BitVec 64} {pc : Word}
    (hco : c.eng.Coherent env.extC) (hrun : Running c.eng c.cpu cur rest pc b pre) :
    (c.stepRun env disp cur rest cycle pc).1.Inv env.extC ∧
      EntersHead (c.stepRun env disp cur rest cycle pc).1.eng (c.stepRun env disp cur rest cycle pc).2 := by
  obtain ⟨ir, rest, rfl⟩ := List.exists_cons_of_ne_nil hrun.rest_ne
  have hlinked := hco.linked cur b hrun.block
  have hirs := hrun.irs
  have hends := hlinked.translated.ends_last pre ir rest hirs
  -- what is known of the tail
  have htail : rest = [] → b.tail = ir ∧ b.tailPc = pc ∧ ¬b.Sleeps := by
    rintro rfl
    have hdrop : b.irs.dropLast = pre := by rw [hirs, List.dropLast_concat]
    refine ⟨by simp [Block.tail, hirs], by rw [Block.tailPc, hdrop, hrun.pc], ?_⟩
    rintro ⟨x, hx, hwfi⟩
    rw [hdrop] at hx
    exact hrun.awake x hx hwfi
  have hlinks (f : Links → Option Ref) {r : Ref}
      (h : f (if rest.isEmpty then (c.eng.block cur).elim {} Block.links else {}) = some r)
      (hf : f {} = none) : rest = [] ∧ f b.links = some r := by
    split at h
    · rename_i hrest
      rw [hrun.block] at h
      exact ⟨List.isEmpty_iff.mp hrest, h⟩
    · rw [hf] at h
      cases h
  -- the block that `last_pc` names once the handler has returned
  have hreturn : ∀ s' : Cpu, s'.lastPc = c.cpu.lastPc → b.FollowedBy s' →
      ∃ r a, c.eng.block r = some a ∧ a.pcStart = s'.lastPc ∧ a.FollowedBy s' := by
    intro s' hs' hfol
    rw [hs']
    rcases hrun.last with hlast | ⟨r, a, ha, hpc, hind⟩
    · exact ⟨cur, b, hrun.block, hlast.symm, hfol⟩
    · exact ⟨r, a, ha, hpc, .inr (.of_closed (Opcode.isIndirectBranch_closed hind).2 _ _)⟩
  have hstep := impl_nodeStep env ir
    (if rest.isEmpty then (c.eng.block cur).elim {} Block.links else {}) rest.isEmpty cycle pc c.cpu
  unfold Conf.stepRun
  simp only
  generalize impl env ir (if rest.isEmpty then (c.eng.block cur).elim {} Block.links else {})
    rest.isEmpty cycle pc c.cpu = ctl at hstep ⊢
  cases hstep with
  | next hnext hwfi hlast =>
    refine ⟨⟨hco, b, pre ++ [ir], hrun.block, by simp [hirs], by simpa using hnext, ?_, ?_, ?_⟩, ?_⟩
    · simp only [List.mem_append, List.mem_singleton]
      rintro x (hx | rfl)
      · exact hrun.awake x hx
      · exact hwfi
    · simp [nodesLen, hrun.pc, BitVec.add_assoc]
    · exact hlast ▸ hrun.last
    · simp [EntersHead]
  | @taken _ _ s' hlk hkind hlast =>
    obtain ⟨rfl, hlink⟩ := hlinks Links.taken hlk rfl
    obtain ⟨htl, htlPc, hawake⟩ := htail rfl
    have hat := hlinked.taken _ hlink hawake (by rwa [htl])
    rw [htl, htlPc] at hat
    exact (enter_inv (c := { c with cpu := s' }) hco hat (.inl hlast)).imp_right entersHead_exec
  | @untaken _ _ s' hlk hkind hlast =>
    obtain ⟨rfl, hlink⟩ := hlinks Links.untaken hlk rfl
    obtain ⟨htl, htlPc, hawake⟩ := htail rfl
    have hat := hlinked.untaken _ hlink hawake (by rwa [htl])
    rw [htl, htlPc] at hat
    exact (enter_inv (c := { c with cpu := s' }) hco hat (.inl hlast)).imp_right entersHead_exec
  | @lookup _ _ s' hop hlast =>
    obtain rfl := hends (Opcode.endsBlock_of_canBranch (Opcode.isIndirectBranch_closed hop).1)
    refine (lookupBranch_inv (c := { c with cpu := s' }) hco hrun.block ?_).imp_right entersHead_exec
    rw [hlast]
    rcases hrun.last with h | h
    · exact ⟨cur, b, hrun.block, h.symm, by rwa [(htail rfl).1]⟩
    · exact h
  | ret hend hfollow hlast =>
    refine ⟨handlerReturned_inv (c := { c with cpu := _ }) disp true hco fun _ => hreturn _ hlast ?_,
      by simp [EntersHead]⟩
    by_cases hrest : rest = []
    · obtain ⟨htl, htlPc, -⟩ := htail hrest
      exact .inr (by rwa [htl, htlPc])
    · have hwfi : ir.opcode = .wfi := by
        rcases hend with h | h | h
        · exact absurd (by simpa using h) hrest
        · exact absurd (hends h) hrest
        · exact h
      refine .inl ⟨ir, ?_, hwfi⟩
      rw [hirs, List.dropLast_append_of_ne_nil (by simp), List.dropLast_cons_of_ne_nil hrest]
      simp
  | fail =>
    exact ⟨handlerReturned_inv (c := { c with cpu := _ }) disp false hco (fun h => nomatch h),
      by simp [EntersHead]⟩
  | @trap t s' hafter hlast =>
    obtain ⟨htake, hfalse⟩ := t.take_spec env s'
    simp only
    split
    · exact ⟨⟨hco, trivial⟩, by simp [EntersHead]⟩
    · refine ⟨handlerReturned_inv (c := { c with cpu := _ }) disp _ hco fun hok => ?_, by simp [EntersHead]⟩
      refine hreturn _ (htake.trans hlast) ?_
      rcases hafter with h | ⟨h, hclosed⟩
      · rw [hfalse h] at hok
        cases hok
      · obtain ⟨htl, -, -⟩ := htail (hends h)
        exact .inr (.of_closed (by rwa [htl]) _ _)

end Handlers

/-! ### Runs -/

section Runs

variable {env : Env} {host : Host} {c : Conf}

/-- **One step keeps the invariant**, and what it tail-calls is the head of a block. -/
theorem Inv.step (h : c.Inv env.extC) (hill : ∀ epc, Event.illegal epc ∉ (c.step env host).2) :
    (c.step env host).1.Inv env.extC ∧ EntersHead (c.step env host).1.eng (c.step env host).2 := by
  have hloc := h.loc
  have hquiet : EntersHead c.eng [] := by simp [EntersHead]
  unfold Conf.step at hill ⊢
  rcases hl : c.loc with _ | _ | ⟨disp, cur, rest, cycle, pc⟩ | _ <;> simp only [hl] at hloc hill ⊢
  · exact ⟨⟨h.coherent, hloc⟩, hquiet⟩
  · split_ifs at hill ⊢
    · obtain ⟨hinv, hevents⟩ := h.dispatch hl hill
      exact ⟨hinv, by simp [EntersHead, hevents]⟩
    · exact ⟨⟨h.coherent, hloc⟩, hquiet⟩
  · obtain ⟨b, pre, hrun⟩ := hloc
    exact Inv.stepRun h.coherent hrun
  · exact ⟨h, hquiet⟩

/-- The configuration of a machine that has not run yet. -/
theorem inv_init (extC : Bool) (s : Cpu) : Inv extC { eng := {}, cpu := s } :=
  ⟨BlockMap.coherent_empty rfl rfl rfl, fun h => absurd rfl h⟩

/-- **The invariant along a run.** -/
theorem Inv.stepN (h : c.Inv env.extC) (n : Nat)
    (hill : ∀ epc, Event.illegal epc ∉ (c.stepN env host n).2) : (c.stepN env host n).1.Inv env.extC := by
  induction n generalizing c with
  | zero => exact h
  | succ n ih =>
    have hsplit : ∀ epc, Event.illegal epc ∉ (c.step env host).2 ∧
        Event.illegal epc ∉ ((c.step env host).1.stepN env host n).2 := by
      intro epc
      have := hill epc
      simp only [Conf.stepN, List.mem_append, not_or] at this
      exact this
    exact ih (h.step fun epc => (hsplit epc).1).1 fun epc => (hsplit epc).2

end Runs

end Conf

/-- **Block chaining never jumps to the wrong block.** From a machine that has not run yet, as long as
`block_translate` raises no illegal-instruction trap, what a handler tail-calls is the head of a block
in the block map, and the `PC` it passes on is the address of that node. -/
theorem tailCall_enters_head (env : Env) (host : Host) (s : Cpu) (n : Nat)
    (hill : ∀ epc, Event.illegal epc ∉ (Conf.stepN env host (n + 1) { eng := {}, cpu := s }).2)
    {r : Ref} {pc : Word}
    (hcall : .tailCall r pc ∈ ((Conf.stepN env host n { eng := {}, cpu := s }).1.step env host).2) :
    ∃ b ir rest,
      ((Conf.stepN env host n { eng := {}, cpu := s }).1.step env host).1.eng.block r = some b ∧
      ((Conf.stepN env host n { eng := {}, cpu := s }).1.step env host).1.eng.index pc = some r ∧
      b.irs = ir :: rest ∧ ir.pc = pc := by
  rw [Conf.stepN_succ] at hill
  simp only [List.mem_append, not_or] at hill
  have hinv := (Conf.inv_init env.extC s).stepN n fun epc => (hill epc).1
  obtain ⟨hinv, henters⟩ := hinv.step fun epc => (hill epc).2
  have hat := henters r pc hcall
  obtain ⟨b, hb, hpc⟩ := hat
  have hhead := (hinv.coherent.linked r b hb).translated.head_pc
  rcases hirs : b.irs with _ | ⟨ir, rest⟩
  · rw [hirs] at hhead
    cases hhead
  · rw [hirs] at hhead
    exact ⟨b, ir, rest, hb, (hinv.coherent.index_iff pc r).mpr ⟨b, hb, hpc⟩, hirs,
      (Option.some.inj hhead).trans hpc⟩

/-- `j .` at address 0. -/
def spin : Cpu := Cpu.zero (Mem.writeW (fun _ => 0) 0 0x6f)

/-- `rv_step` about to run it for the first time. -/
def spinning (irs : List Insn) : Conf :=
  { eng := BlockMap.blockInsert true {} 0 { pcStart := 0, pageTerminated := false, irs },
    cpu := { spin with onExit := (irs.headD {}).pc = 0 }, target := 100, loc := .run 0 0 irs 0 0 }

theorem spin_dispatched :
    Conf.stepN (Env.bare false) roomyHost 2 { eng := {}, cpu := spin } =
      (spinning [{ opcode := .jal }], []) := by
  have h : Conf.stepN (Env.bare false) roomyHost 2 { eng := {}, cpu := spin } =
      (spinning (matchPattern (fun _ => true) [{ opcode := .jal }]), []) := by rfl
  rw [h, matchPattern]

/-- The second time around `j .` is entered through its own `branch_taken`. -/
theorem tailCall_enters_head_spin :
    ∃ b ir rest,
      ((Conf.stepN (Env.bare false) roomyHost 4 { eng := {}, cpu := spin }).1.step
        (Env.bare false) roomyHost).1.eng.block 0 = some b ∧
      ((Conf.stepN (Env.bare false) roomyHost 4 { eng := {}, cpu := spin }).1.step
        (Env.bare false) roomyHost).1.eng.index 0 = some 0 ∧
      b.irs = ir :: rest ∧ ir.pc = 0 := by
  have hrun : (Conf.stepN (Env.bare false) roomyHost 5 { eng := {}, cpu := spin }).2 =
      [.exec { opcode := .jal } 0, .exec { opcode := .jal } 0, .tailCall 0 0] := by
    rw [Conf.stepN_add _ _ 2 3, spin_dispatched]
    rfl
  have hlast : ((Conf.stepN (Env.bare false) roomyHost 4 { eng := {}, cpu := spin }).1.step
      (Env.bare false) roomyHost).2 = [.exec { opcode := .jal } 0, .tailCall 0 0] := by
    rw [Conf.stepN_add _ _ 2 2, spin_dispatched]
    rfl
  refine tailCall_enters_head (Env.bare false) roomyHost spin 4 (fun epc => ?_) ?_
  · rw [hrun]
    simp
  · rw [hlast]
    simp

end Rv32emu
