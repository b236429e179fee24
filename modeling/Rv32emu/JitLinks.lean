import Rv32emu.JitEmit
import Rv32emu.PageIndex

/-!
# The links between the blocks of a JIT build

`block_find_or_translate` and the loop of `rv_step` in a `JIT` build without T2C. The blocks on `rv->block_list` are
linked by the addresses of their first nodes, and a block that `cache_put` replaces is taken off the list and freed.

* `PoolBlock`, `JitEngine` : the blocks, and what the loop works on;
* `evict`, `insertBlock`, `blockFind`, `FindOrTranslate` : `block_find_or_translate`;
* `refreshPrev`, `linkPrev`, `LoopStep` : the loop;
* `JitEngine.Inv` : the blocks of the cache are on the list, each under one entry; `linksLive_run` : in every run the
  links and `prev` are null or lead to blocks on the list.
-/

namespace Rv32emu

/-! ## Blocks -/

/-- The address of a node. The pool hands out the addresses of freed nodes again. -/
abbrev NodeAddr := Nat

/-- `block_t`, as far as blocks are found, linked and freed. -/
structure PoolBlock where
  pcStart : Word
  satp : Word := 0
  invalidated : Bool := false
  pageTerminated : Bool := false
  irHead : NodeAddr
  /-- The opcode of `ir_tail`, and its links. -/
  tailOp : Opcode
  branchTaken : Option NodeAddr := none
  branchUntaken : Option NodeAddr := none

namespace PoolBlock

/-- The links of `ir_tail` once a block that begins at `entry` has been found to follow it. -/
def link (b : PoolBlock) (isBranchTaken : Bool) (entry : NodeAddr) : PoolBlock :=
  let taken := { b with branchTaken := b.branchTaken.or (some entry) }
  if b.pageTerminated then taken
  else if !b.tailOp.isUnconditionalBranch then
    if isBranchTaken then taken else { b with branchUntaken := b.branchUntaken.or (some entry) }
  else if b.tailOp.isDirectBranch then taken
  else b

/-- The links to `entry` are removed. -/
def unlink (b : PoolBlock) (entry : NodeAddr) : PoolBlock :=
  { b with
    branchTaken := if b.branchTaken = some entry then none else b.branchTaken
    branchUntaken := if b.branchUntaken = some entry then none else b.branchUntaken }

/-- The block has a link to `entry`. -/
def LinksTo (b : PoolBlock) (entry : NodeAddr) : Prop := b.branchTaken = some entry ∨ b.branchUntaken = some entry

theorem linksTo_unlink {b : PoolBlock} {gone entry : NodeAddr} :
    (b.unlink gone).LinksTo entry ↔ entry ≠ gone ∧ b.LinksTo entry := by
  unfold LinksTo unlink
  simp only
  split_ifs <;> grind

theorem linksTo_link {b : PoolBlock} {isBranchTaken : Bool} {new entry : NodeAddr}
    (h : (b.link isBranchTaken new).LinksTo entry) : b.LinksTo entry ∨ entry = new := by
  have hor : ∀ {link : Option NodeAddr}, link.or (some new) = some entry → link = some entry ∨ entry = new := by
    intro link hlink
    cases link with
    | none => exact .inr (Option.some.inj hlink).symm
    | some old => exact .inl hlink
  unfold link LinksTo at h
  unfold LinksTo
  simp only at h
  split_ifs at h <;> grind

end PoolBlock

/-! ## The engine -/

structure JitEngine where
  pc : Word
  csrSatp : Word := 0
  lastPc : Word := 0
  isBranchTaken : Bool := false
  prev : Option Ref := none
  blockList : List Ref := []
  /-- The memory of the blocks. -/
  block : Ref → PoolBlock
  cache : Cache Ref

namespace JitEngine

def setBlock (s : JitEngine) (r : Ref) (b : PoolBlock) : JitEngine := { s with block := Function.update s.block r b }

/-- What follows in `block_find_or_translate` when `cache_put` has replaced the block `r`. -/
def evict (s : JitEngine) (r : Ref) : JitEngine :=
  let entry := (s.block r).irHead
  { s with
    prev := if s.prev = some r then none else s.prev
    block := fun q => if q ∈ s.blockList then (s.block q).unlink entry else s.block q
    blockList := s.blockList.erase r }

/-- The new block `b` at `r` goes on the list and into the cache; `alloc` says whether `cache_put` gets memory. -/
def insertBlock (s : JitEngine) (r : Ref) (b : PoolBlock) (alloc : Bool) : Option JitEngine := do
  let (replaced, cache) ← s.cache.cachePut s.pc r alloc
  let s := { s with block := Function.update s.block r b, blockList := r :: s.blockList, cache }
  match replaced with
  | none => some s
  | some q => some (s.evict q)

/-- A `SYSTEM` build uses a block under its own `satp` and while it is valid. -/
def usable (bld : JitBuild) (s : JitEngine) (r : Ref) : Bool :=
  !bld.system || ((s.block r).satp = s.csrSatp && !(s.block r).invalidated)

/-- The lookup at the start of `block_find_or_translate`. -/
def blockFind (bld : JitBuild) (s : JitEngine) : Option Ref × JitEngine :=
  let (r, cache) := s.cache.cacheGet s.pc true
  (r.filter (s.usable bld), { s with cache })

/-- What guest code and its traps do to the engine: blocks are looked up in the cache and invalidated, and
`__trap_handler` clears `prev`. No block is translated, linked or freed. -/
structure Runs (s s' : JitEngine) : Prop where
  blockList : s'.blockList = s.blockList
  block : ∀ r, ∃ invalidated, s'.block r = { s.block r with invalidated }
  prev : s'.prev = s.prev ∨ s'.prev = none
  cache : ∃ gets : List (Word × Bool), s'.cache = gets.foldl (fun c g => (c.cacheGet g.1 g.2).2) s.cache

/-- `try_lazy_fusion` on the block `r`: the tail may become a fused node, which has no links yet. -/
inductive Fused (bld : JitBuild) (s : JitEngine) (r : Ref) : JitEngine → Prop
  | same : Fused bld s r s
  | tail (hmmio : bld.mmio = true) (tailOp : Opcode) :
      Fused bld s r (s.setBlock r { s.block r with tailOp := tailOp, branchTaken := none, branchUntaken := none })

/-- `block_find_or_translate`, with its result. `block_translate` fetches guest code, which may trap. The pool gives out
a block that is not on the list. -/
inductive FindOrTranslate (bld : JitBuild) (s : JitEngine) : Option Ref → JitEngine → Prop
  | found {r : Ref} {s₁ s' : JitEngine} (hfind : s.blockFind bld = (some r, s₁)) (hfused : s₁.Fused bld r s') :
      FindOrTranslate bld s (some r) s'
  | failed {s₁ s' : JitEngine} (hfind : s.blockFind bld = (none, s₁)) (hruns : s₁.Runs s') :
      FindOrTranslate bld s none s'
  | translated {s₁ s₂ s' : JitEngine} {r : Ref} {alloc : Bool} {pcStart : Word} {pageTerminated : Bool}
      {irHead : NodeAddr} {tailOp : Opcode} (hfind : s.blockFind bld = (none, s₁)) (hruns : s₁.Runs s₂)
      (hfree : r ∉ s₂.blockList)
      (hput : s₂.insertBlock r { pcStart, satp := s₂.csrSatp, pageTerminated, irHead, tailOp } alloc = some s') :
      FindOrTranslate bld s (some r) s'

/-- The start of an iteration: `prev` is looked up again if blocks have been chained. -/
def refreshPrev (s : JitEngine) : JitEngine :=
  match s.prev with
  | none => s
  | some p =>
    if (s.block p).pcStart = s.lastPc then s else { s with prev := (s.cache.cacheGet s.lastPc false).1 }

/-- The linking code: `prev` is linked to the block `r`. -/
def linkPrev (bld : JitBuild) (s : JitEngine) (r : Ref) : JitEngine :=
  match s.prev with
  | none => s
  | some p =>
    if s.usable bld p then s.setBlock p ((s.block p).link s.isBranchTaken (s.block r).irHead) else s

end JitEngine

/-- Where `rv_step` is. -/
inductive JitLoc
  /-- At the start of an iteration, or between two calls. -/
  | head
  /-- After `block_find_or_translate`. -/
  | called (r : Option Ref)
  /-- The block is linked and runs. -/
  | run (r : Ref)

/-- One step of `rv_step`. An interrupt may be taken before the call. After a run `prev` is the block if the
interpreter ran it to its end. -/
inductive LoopStep (bld : JitBuild) : JitLoc × JitEngine → JitLoc × JitEngine → Prop
  | call {s s₁ s' : JitEngine} {r : Option Ref} (hruns : s.Runs s₁) (hcall : s₁.refreshPrev.FindOrTranslate bld r s') :
      LoopStep bld (.head, s) (.called r, s')
  | noBlock {s s' : JitEngine} (hruns : s.Runs s') : LoopStep bld (.called none, s) (.head, s')
  | link {s : JitEngine} {r : Ref} :
      LoopStep bld (.called (some r), s) (.run r, { s.linkPrev bld r with lastPc := s.pc })
  | run {s s' : JitEngine} {r : Ref} {prev : Option Ref} (hruns : s.Runs s') (hprev : prev = none ∨ prev = some r) :
      LoopStep bld (.run r, s) (.head, { s' with prev })

/-- The states of a build whose cache has `2 ^ bits` entries. -/
inductive LoopReachable (bld : JitBuild) (bits : Nat) : JitLoc × JitEngine → Prop
  | init {pc : Word} {block : Ref → PoolBlock} {cache : Cache Ref}
      (hcreate : cacheCreate Ref bld.system bits = some cache) : LoopReachable bld bits (.head, { pc, block, cache })
  | step {x y : JitLoc × JitEngine} (h : LoopReachable bld bits x) (hstep : LoopStep bld x y) : LoopReachable bld bits y

/-! ## The blocks of the cache -/

namespace Cache

variable {V : Type} {c c' : Cache V}

theorem cacheGet_alive {key : Word} {update : Bool} {v : V} (h : (c.cacheGet key update).1 = some v) :
    ∃ p, c.aliveValue p = some v := by
  unfold cacheGet at h
  split at h
  · cases h
  · rename_i p e hfirst
    obtain ⟨-, hp, -⟩ := firstOf_some hfirst
    have halive : e.alive = true ∧ e.value = v := by
      split_ifs at h with ha
      all_goals exact ⟨Bool.not_eq_false _ ▸ ha, Option.some.inj h⟩
    exact ⟨p, aliveValue_eq_some.mpr ⟨e, hp, halive⟩⟩

/-- The alive values after a `cache_put` of a value that no entry has. -/
theorem Wf.cachePut_alive [DecidableEq V] (h : c.Wf) (hinj : OneToOne c.aliveValue) {key : Word} {value : V}
    (hnew : ∀ p, c.aliveValue p ≠ some value) {alloc : Bool} {r : Option V}
    (hput : c.cachePut key value alloc = some (r, c')) :
    OneToOne c'.aliveValue ∧ (∀ p v, c'.aliveValue p = some v → v = value ∨ ∃ q, c.aliveValue q = some v) ∧
      ∀ q, r = some q → (∃ p, c.aliveValue p = some q) ∧ ∀ p, c'.aliveValue p ≠ some q := by
  have hadd : ∀ {f : EntryPtr → Option V}, (∀ p v, f p = some v → ∃ q, c.aliveValue q = some v) →
      ∀ p v, Function.update f c.fresh (some value) p = some v → v = value ∨ ∃ q, c.aliveValue q = some v := by
    intro f hf p v hv
    by_cases hp : p = c.fresh
    · rw [hp, Function.update_self] at hv
      exact .inl (Option.some.inj hv).symm
    · rw [Function.update_of_ne hp] at hv
      exact .inr (hf p v hv)
  obtain ⟨-, rfl, hvalue⟩ | ⟨p, e, -, hp, ⟨-, rfl, hvalue⟩ | ⟨-, rfl, hvalue⟩⟩ := h.cachePut_aliveValue hput
  · refine ⟨?_, ?_, fun q hq => by cases hq⟩
    · rw [hvalue]
      split_ifs
      · exact hinj.update_some hnew _
      · exact hinj
    · rw [hvalue]
      split_ifs
      · exact hadd fun p v hv => ⟨p, hv⟩
      · exact fun p v hv => .inr ⟨p, hv⟩
  · rw [hvalue]
    exact ⟨hinj, fun p v hv => .inr ⟨p, hv⟩, fun q hq => by cases hq⟩
  · have hsub : ∀ q v, Function.update c.aliveValue p none q = some v → ∃ q, c.aliveValue q = some v :=
      fun q v hv => ((hinj.mem_update_none hp v).mp ⟨q, hv⟩).1
    refine ⟨?_, ?_, ?_⟩
    · rw [hvalue]
      refine (hinj.update_none p).update_some (fun q hq => ?_) _
      obtain ⟨q', hq'⟩ := hsub q value hq
      exact hnew q' hq'
    · rw [hvalue]
      exact hadd hsub
    · intro q hq
      cases hq
      refine ⟨⟨p, hp⟩, fun x hx => ?_⟩
      rw [hvalue] at hx
      by_cases hfresh : x = c.fresh
      · rw [hfresh, Function.update_self] at hx
        exact hnew p (hp.trans hx.symm)
      · rw [Function.update_of_ne hfresh] at hx
        exact ((hinj.mem_update_none hp e.value).mp ⟨x, hx⟩).2 rfl

end Cache

/-! ## The invariant -/

namespace JitEngine

/-- The links of the blocks on the list, and `prev`, are null or lead to blocks on the list. -/
structure LinksLive (s : JitEngine) : Prop where
  links : ∀ r ∈ s.blockList, ∀ entry, (s.block r).LinksTo entry → ∃ q ∈ s.blockList, (s.block q).irHead = entry
  prev : ∀ p, s.prev = some p → p ∈ s.blockList

structure Inv (s : JitEngine) : Prop extends s.LinksLive where
  wf : s.cache.Wf
  bounded : s.cache.Bounded
  oneToOne : OneToOne s.cache.aliveValue
  cached : ∀ p r, s.cache.aliveValue p = some r → r ∈ s.blockList
  nodup : s.blockList.Nodup

namespace Inv

variable {bld : JitBuild} {s s' : JitEngine}

theorem get (h : s.Inv) (key : Word) (update : Bool) : { s with cache := (s.cache.cacheGet key update).2 }.Inv where
  links := h.links
  prev := h.prev
  wf := (h.wf.cacheGet key update).1
  bounded := h.bounded.cacheGet h.wf update
  oneToOne := by
    rw [Cache.cacheGet_aliveValue]
    exact h.oneToOne
  cached := by
    rw [Cache.cacheGet_aliveValue]
    exact h.cached
  nodup := h.nodup

theorem get_mem (h : s.Inv) {key : Word} {update : Bool} {r : Ref} (hr : (s.cache.cacheGet key update).1 = some r) :
    r ∈ s.blockList := by
  obtain ⟨p, hp⟩ := Cache.cacheGet_alive hr
  exact h.cached p r hp

theorem gets (h : s.Inv) (gets : List (Word × Bool)) :
    { s with cache := gets.foldl (fun c (g : Word × Bool) => (c.cacheGet g.1 g.2).2) s.cache }.Inv := by
  induction gets generalizing s with
  | nil => exact h
  | cons g gets ih => exact ih (h.get g.1 g.2)

/-- Blocks whose heads and links stay, and a `prev` on the list. -/
theorem keep (h : s.Inv) (hlist : s'.blockList = s.blockList) (hcache : s'.cache = s.cache)
    (hhead : ∀ r, (s'.block r).irHead = (s.block r).irHead)
    (hlinks : ∀ r ∈ s.blockList, ∀ entry, (s'.block r).LinksTo entry → (s.block r).LinksTo entry ∨
      ∃ q ∈ s.blockList, (s.block q).irHead = entry)
    (hprev : ∀ p, s'.prev = some p → p ∈ s.blockList) : s'.Inv where
  links := by
    rw [hlist]
    intro r hr entry hlink
    obtain ⟨q, hq, hhead'⟩ : ∃ q ∈ s.blockList, (s.block q).irHead = entry := by
      rcases hlinks r hr entry hlink with hlink | hnew
      · exact h.links r hr entry hlink
      · exact hnew
    exact ⟨q, hq, (hhead q).trans hhead'⟩
  prev := by
    rw [hlist]
    exact hprev
  wf := hcache ▸ h.wf
  bounded := hcache ▸ h.bounded
  oneToOne := hcache ▸ h.oneToOne
  cached := by
    rw [hcache, hlist]
    exact h.cached
  nodup := hlist ▸ h.nodup

theorem runs (h : s.Inv) (hruns : s.Runs s') : s'.Inv := by
  obtain ⟨gets, hcache⟩ := hruns.cache
  refine (h.gets gets).keep hruns.blockList hcache ?_ ?_ ?_
  · intro r
    obtain ⟨invalidated, hr⟩ := hruns.block r
    rw [hr]
  · intro r _ entry hlink
    obtain ⟨invalidated, hr⟩ := hruns.block r
    rw [hr] at hlink
    exact .inl hlink
  · intro p hp
    rcases hruns.prev with heq | heq
    · exact h.prev p (heq ▸ hp)
    · rw [heq] at hp
      cases hp

/-- A block keeps its head, and a new link leads to a block on the list. -/
theorem setBlock (h : s.Inv) {r : Ref} {b : PoolBlock} (hhead : b.irHead = (s.block r).irHead)
    (hlinks : ∀ entry, b.LinksTo entry → (s.block r).LinksTo entry ∨ ∃ q ∈ s.blockList, (s.block q).irHead = entry) :
    (s.setBlock r b).Inv := by
  have hother : ∀ q, q ≠ r → (s.setBlock r b).block q = s.block q := fun q hq => Function.update_of_ne hq _ _
  have hself : (s.setBlock r b).block r = b := Function.update_self _ _ _
  refine h.keep rfl rfl (fun q => ?_) (fun q _ entry hlink => ?_) h.prev
  · by_cases hq : q = r
    · rw [hq, hself, hhead]
    · rw [hother q hq]
  · by_cases hq : q = r
    · rw [hq, hself] at hlink
      rw [hq]
      exact hlinks entry hlink
    · rw [hother q hq] at hlink
      exact .inl hlink

theorem fused (h : s.Inv) {r : Ref} (hfused : s.Fused bld r s') : s'.Inv ∧ s'.blockList = s.blockList := by
  cases hfused with
  | same => exact ⟨h, rfl⟩
  | tail hmmio tailOp =>
    refine ⟨h.setBlock rfl fun entry hlink => ?_, rfl⟩
    rcases hlink with hlink | hlink <;> cases hlink

theorem refreshPrev (h : s.Inv) : s.refreshPrev.Inv := by
  unfold JitEngine.refreshPrev
  split
  · exact h
  · split_ifs
    · exact h
    · exact h.keep rfl rfl (fun _ => rfl) (fun _ _ _ => .inl) fun p hp => h.get_mem hp

theorem linkPrev (bld : JitBuild) (h : s.Inv) {r : Ref} (hr : r ∈ s.blockList) :
    (s.linkPrev bld r).Inv ∧ (s.linkPrev bld r).blockList = s.blockList := by
  unfold JitEngine.linkPrev
  split
  · exact ⟨h, rfl⟩
  · rename_i p hp
    split_ifs
    · refine ⟨h.setBlock ?_ fun entry hlink => ?_, rfl⟩
      · unfold PoolBlock.link
        split_ifs <;> rfl
      · rcases PoolBlock.linksTo_link hlink with hold | hnew
        · exact .inl hold
        · exact .inr ⟨r, hr, hnew.symm⟩
    · exact ⟨h, rfl⟩

/-- The block `r` is in the cache no more, and leaves the list with all links to it. -/
theorem evict (h : s.Inv) {r : Ref} (hgone : ∀ p, s.cache.aliveValue p ≠ some r) : (s.evict r).Inv := by
  have hmem : ∀ q, q ∈ (s.evict r).blockList ↔ q ≠ r ∧ q ∈ s.blockList := fun q => h.nodup.mem_erase_iff
  have hblock : ∀ q ∈ s.blockList, (s.evict r).block q = (s.block q).unlink (s.block r).irHead := fun q hq => if_pos hq
  refine ⟨⟨fun q hq entry hlink => ?_, fun p hp => ?_⟩, h.wf, h.bounded, h.oneToOne, fun p q hq => ?_, h.nodup.erase r⟩
  · obtain ⟨-, hq⟩ := (hmem q).mp hq
    rw [hblock q hq] at hlink
    obtain ⟨hne, hold⟩ := PoolBlock.linksTo_unlink.mp hlink
    obtain ⟨x, hx, hhead⟩ := h.links q hq entry hold
    refine ⟨x, (hmem x).mpr ⟨?_, hx⟩, ?_⟩
    · rintro rfl
      exact hne hhead.symm
    · rw [hblock x hx]
      exact hhead
  · have hprev : (if s.prev = some r then none else s.prev) = some p := hp
    split_ifs at hprev with hr
    refine (hmem p).mpr ⟨?_, h.prev p hprev⟩
    rintro rfl
    exact hr hprev
  · refine (hmem q).mpr ⟨?_, h.cached p q hq⟩
    rintro rfl
    exact hgone p hq

theorem insertBlock (h : s.Inv) {r : Ref} {b : PoolBlock} {alloc : Bool} (hfree : r ∉ s.blockList)
    (hlinks : ∀ entry, ¬ b.LinksTo entry) (hput : s.insertBlock r b alloc = some s') :
    s'.Inv ∧ r ∈ s'.blockList := by
  unfold JitEngine.insertBlock at hput
  obtain ⟨⟨replaced, cache⟩, hcache, hput⟩ := Option.bind_eq_some_iff.mp hput
  obtain ⟨honce, hvalues, hreplaced⟩ := h.wf.cachePut_alive h.oneToOne (fun p hp => hfree (h.cached p r hp)) hcache
  let s₁ : JitEngine := { s with block := Function.update s.block r b, blockList := r :: s.blockList, cache }
  have hother : ∀ q ∈ s.blockList, s₁.block q = s.block q := by
    intro q hq
    refine Function.update_of_ne ?_ _ _
    rintro rfl
    exact hfree hq
  have h₁ : s₁.Inv := by
    refine ⟨⟨fun q hq entry hlink => ?_, fun p hp => List.mem_cons_of_mem _ (h.prev p hp)⟩,
      h.bounded.cachePut_wf h.wf hcache, h.bounded.cachePut h.wf hcache, honce, fun p q hq => ?_,
      List.nodup_cons.mpr ⟨hfree, h.nodup⟩⟩
    · rcases List.mem_cons.mp hq with rfl | hq
      · have hself : s₁.block q = b := Function.update_self _ _ _
        rw [hself] at hlink
        exact absurd hlink (hlinks entry)
      · rw [hother q hq] at hlink
        obtain ⟨x, hx, hhead⟩ := h.links q hq entry hlink
        exact ⟨x, List.mem_cons_of_mem _ hx, (hother x hx).symm ▸ hhead⟩
    · rcases hvalues p q hq with rfl | ⟨p', hp'⟩
      · exact List.mem_cons_self
      · exact List.mem_cons_of_mem _ (h.cached p' q hp')
  cases replaced with
  | none =>
    cases hput
    exact ⟨h₁, List.mem_cons_self⟩
  | some q =>
    cases hput
    obtain ⟨⟨p, hp⟩, hgone⟩ := hreplaced q rfl
    refine ⟨h₁.evict hgone, h₁.nodup.mem_erase_iff.mpr ⟨?_, List.mem_cons_self⟩⟩
    rintro rfl
    exact hfree (h.cached p r hp)

theorem blockFind (bld : JitBuild) (h : s.Inv) : (s.blockFind bld).2.Inv ∧ ∀ r, (s.blockFind bld).1 = some r →
    r ∈ (s.blockFind bld).2.blockList := by
  refine ⟨h.get s.pc true, fun r hr => ?_⟩
  obtain ⟨hget, -⟩ := Option.filter_eq_some_iff.mp hr
  exact h.get_mem hget

/-- **One call of `block_find_or_translate`** keeps the invariant, and its result is on the list. -/
theorem findOrTranslate (h : s.Inv) {res : Option Ref} (hcall : s.FindOrTranslate bld res s') :
    s'.Inv ∧ ∀ r, res = some r → r ∈ s'.blockList := by
  obtain ⟨hinv, hmem⟩ := h.blockFind bld
  cases hcall with
  | found hfind hfused =>
    rw [hfind] at hinv hmem
    obtain ⟨h', hlist⟩ := hinv.fused hfused
    exact ⟨h', fun r hr => hlist ▸ hmem r hr⟩
  | failed hfind hruns =>
    rw [hfind] at hinv
    exact ⟨hinv.runs hruns, fun r hr => by cases hr⟩
  | translated hfind hruns hfree hput =>
    rw [hfind] at hinv
    have h₂ := hinv.runs hruns
    obtain ⟨h', hr⟩ := h₂.insertBlock hfree (by rintro entry (hlink | hlink) <;> cases hlink) hput
    refine ⟨h', fun q hq => ?_⟩
    cases hq
    exact hr

end Inv

end JitEngine

/-- The invariant of the loop: the block of an iteration is on the list. -/
def LoopInv : JitLoc × JitEngine → Prop
  | (.head, s) => s.Inv
  | (.called res, s) => s.Inv ∧ ∀ r, res = some r → r ∈ s.blockList
  | (.run r, s) => s.Inv ∧ r ∈ s.blockList

theorem LoopInv.inv {x : JitLoc × JitEngine} (h : LoopInv x) : x.2.Inv := by
  obtain ⟨loc, s⟩ := x
  cases loc with
  | head => exact h
  | called | run => exact h.1

theorem LoopInv.step {bld : JitBuild} {x y : JitLoc × JitEngine} (h : LoopInv x) (hstep : LoopStep bld x y) :
    LoopInv y := by
  cases hstep with
  | call hruns hcall => exact (JitEngine.Inv.refreshPrev (JitEngine.Inv.runs h hruns)).findOrTranslate hcall
  | noBlock hruns => exact h.1.runs hruns
  | link =>
    obtain ⟨hinv, hlist⟩ := h.1.linkPrev bld (h.2 _ rfl)
    refine ⟨hinv.keep rfl rfl (fun _ => rfl) (fun _ _ _ => .inl) hinv.prev, ?_⟩
    exact hlist ▸ h.2 _ rfl
  | run hruns hprev =>
    have hinv := h.1.runs hruns
    refine hinv.keep rfl rfl (fun _ => rfl) (fun _ _ _ => .inl) fun p hp => ?_
    rw [hruns.blockList]
    rcases hprev with rfl | rfl <;> cases hp
    exact h.2

theorem LoopReachable.inv {bld : JitBuild} {bits : Nat} {x : JitLoc × JitEngine} (h : LoopReachable bld bits x) :
    LoopInv x := by
  induction h with
  | init hcreate =>
    have hnone := Cache.aliveValue_create hcreate
    refine ⟨⟨fun r hr => absurd hr List.not_mem_nil, fun p hp => by cases hp⟩, .create hcreate, .create hcreate, ?_, ?_,
      .nil⟩
    · intro p q r hp
      rw [hnone] at hp
      cases hp
    · intro p r hp
      rw [hnone] at hp
      cases hp
  | step _ hstep ih => exact ih.step hstep

/-- **No eviction leaves a dangling link**: after every call of `block_find_or_translate`, and everywhere in the loop,
the links of the blocks on the list and `prev` are null or lead to blocks on the list. -/
theorem linksLive_run {bld : JitBuild} {bits : Nat} {loc : JitLoc} {s : JitEngine}
    (h : LoopReachable bld bits (loc, s)) : s.LinksLive :=
  h.inv.inv.toLinksLive

theorem JitEngine.Runs.jump (s : JitEngine) (pc : Word) : s.Runs { s with pc } :=
  ⟨rfl, fun r => ⟨(s.block r).invalidated, rfl⟩, .inl rfl, [], rfl⟩

/-- A new engine whose cache has room for one block. -/
def smallEngine : JitEngine where
  pc := 0x1000
  block _ := { pcStart := 0, irHead := 0, tailOp := .jal }
  cache := { hash := cacheHash false 0, capacity := 1 }

theorem smallEngine_insert :
    (smallEngine.insertBlock 0 { pcStart := 0x1000, irHead := 4, tailOp := .jal } true).isSome := by
  decide

/-- The block at 0x1000 has run to its end and left for 0x2000. -/
def ranEngine : JitEngine :=
  let s := (smallEngine.insertBlock 0 { pcStart := 0x1000, irHead := 4, tailOp := .jal } true).get smallEngine_insert
  { s.linkPrev {} 0 with lastPc := s.pc, pc := 0x2000, prev := some 0 }

theorem ranEngine_reachable : LoopReachable {} 0 (.head, ranEngine) := by
  have h₀ : LoopReachable {} 0 (.head, smallEngine) := .init rfl
  have h₁ := h₀.step (.call (.jump _ 0x1000) (@JitEngine.FindOrTranslate.translated {} _ _ _ _ 0 true 0x1000 false 4
    .jal rfl (.jump _ 0x1000) List.not_mem_nil (Option.eq_some_of_isSome smallEngine_insert)))
  exact (h₁.step .link).step (.run (.jump _ 0x2000) (.inr rfl))

/-- The block at 0x2000 replaces it while it is `prev`. -/
theorem linksLive_replaced : ∃ s, LoopReachable {} 0 (.called (some 1), s) ∧ s.blockList = [1] ∧ s.prev = none ∧
    s.LinksLive := by
  let s₁ := (ranEngine.refreshPrev.blockFind {}).2
  have hmiss : (ranEngine.refreshPrev.blockFind {}).1 = none := by decide
  have hfree : 1 ∉ s₁.blockList := by decide
  have hput : (s₁.insertBlock 1 { pcStart := 0x2000, irHead := 8, tailOp := .jal } true).map
      (fun s => (s.blockList, s.prev)) = some ([1], none) := by decide
  obtain ⟨s', hinsert, hproj⟩ := Option.map_eq_some_iff.mp hput
  obtain ⟨hlist, hprev⟩ := Prod.mk.inj hproj
  have h := ranEngine_reachable.step (.call (.jump _ 0x2000) (@JitEngine.FindOrTranslate.translated {} _ s₁ _ _ 1 true
    0x2000 false 8 .jal (Prod.ext hmiss rfl) (.jump _ 0x2000) hfree hinsert))
  exact ⟨s', h, hlist, hprev, linksLive_run h⟩

end Rv32emu
