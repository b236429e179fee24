import Rv32emu.BlockPages
import Rv32emu.CacheHistory

/-!
# The page index of the block cache

In a `JIT` and `SYSTEM` build with block chaining, `cache.c` files every block under the page of its start, so that
`cache_invalidate_va` need not look at all of them.

* `JitCache` : the block cache with the blocks it refers to and the page index;
* `pageIndexInsert`, `pageIndexRemove`, `cachePut`, `cacheInvalidateSatp`, `cacheInvalidateVa` : as in the source;
* `JitOp`, `jitRun`, `lostBlocks` : sequences of calls, and the blocks that a failed `cache_put` has taken out of the
  index and not put back;
* `JitCache.Indexed` : the index holds the alive blocks that are not lost, each once and under its page. Every run
  keeps it (`Indexed.run`).
-/

namespace Rv32emu

/-! ## The cache -/

structure JitCache where
  cache : Cache Ref
  block : Ref → Option CachedBlock := fun _ => none
  pageIndex : Nat → List Ref := fun _ => []
  pageIndexIncomplete : Bool := false
  /-- The next block. -/
  fresh : Ref := 0

def pageIndexHash (page : Word) : Nat := cacheHash true 10 page

/-- The bucket of the page index in which `va` is looked for. -/
def pageBucket (va : Word) : Nat := pageIndexHash (pageOf va >>> 12)

def jitCacheCreate (bits : Nat) : Option JitCache := (cacheCreate Ref true bits).map fun cache => { cache }

namespace JitCache

/-- `page_index_insert`; `alloc` says whether `malloc` succeeds. -/
def pageIndexInsert (c : JitCache) (r : Ref) (b : CachedBlock) (alloc : Bool) : JitCache :=
  if alloc then
    let bucket := pageBucket b.pcStart
    { c with pageIndex := Function.update c.pageIndex bucket (r :: c.pageIndex bucket) }
  else { c with pageIndexIncomplete := true }

section Insert

variable (c : JitCache) (r : Ref) (b : CachedBlock) (alloc : Bool)

@[simp] theorem pageIndexInsert_cache : (c.pageIndexInsert r b alloc).cache = c.cache := by
  unfold pageIndexInsert
  split_ifs <;> rfl

@[simp] theorem pageIndexInsert_block : (c.pageIndexInsert r b alloc).block = c.block := by
  unfold pageIndexInsert
  split_ifs <;> rfl

@[simp] theorem pageIndexInsert_fresh : (c.pageIndexInsert r b alloc).fresh = c.fresh := by
  unfold pageIndexInsert
  split_ifs <;> rfl

end Insert

def pageIndexRemove (c : JitCache) (r : Ref) (b : CachedBlock) : JitCache :=
  let bucket := pageBucket b.pcStart
  { c with pageIndex := Function.update c.pageIndex bucket ((c.pageIndex bucket).erase r) }

/-- The block that `cache_put` takes out, which leaves the index before the allocation. -/
def removeTaken (c : JitCache) (key : Word) (r : Ref) : Option JitCache :=
  match c.cache.takes key r with
  | none => some c
  | some (_, e) => (c.block e.value).map fun b => c.pageIndexRemove e.value b

/-- `cache_put`, with what it does to the page index. -/
def cachePut (c : JitCache) (key : Word) (r : Ref) (b : CachedBlock) (alloc indexAlloc : Bool) :
    Option (Option Ref × JitCache) := do
  let (replaced, cache) ← c.cache.cachePut key r alloc
  let c ← c.removeTaken key r
  let c := { c with cache }
  return (replaced, if alloc then c.pageIndexInsert r b indexAlloc else c)

/-- The end of `block_find_or_translate`: a new block goes into the cache, and the replaced one is freed. -/
def insertBlock (c : JitCache) (key : Word) (b : CachedBlock) (alloc indexAlloc : Bool) : Option JitCache := do
  let r := c.fresh
  let c := { c with block := Function.update c.block r (some b), fresh := r + 1 }
  let (replaced, c) ← c.cachePut key r b alloc indexAlloc
  return { c with block := replaced.elim c.block fun old => Function.update c.block old none }

/-! ## Invalidation -/

/-- The loops of `cache_invalidate_satp` and `cache_invalidate_va`, which count as they go. -/
def invalidateWhere (hit : CachedBlock → Bool) : List Ref → Word → JitCache → Word × JitCache
  | [], count, c => (count, c)
  | r :: rs, count, c =>
    match c.block r with
    | none => invalidateWhere hit rs count c
    | some b =>
      if hit b then
        invalidateWhere hit rs (count + 1)
          { c with block := Function.update c.block r (some { b with invalidated := true }) }
      else invalidateWhere hit rs count c

def listed (c : JitCache) : List Ref := c.cache.list.filterMap fun p => (c.cache.entry p).map CacheEntry.value

def cacheInvalidateSatp (c : JitCache) (satp : Word) : Word × JitCache :=
  if c.cache.capacity = 0 then (0, c)
  else invalidateWhere (fun b => b.satp = satp ∧ b.invalidated = false) c.listed 0 c

/-- What `cache_invalidate_va` looks for in a bucket of the page index. -/
def indexHit (va satp : Word) (b : CachedBlock) : Bool :=
  b.satp = satp ∧ b.invalidated = false ∧ pageOf b.pcStart = pageOf va

def scanHit (va satp : Word) (b : CachedBlock) : Bool :=
  b.satp = satp ∧ b.invalidated = false ∧ pageOf b.pcStart ≤ pageOf va ∧ pageOf va ≤ pageOf b.lastByte

/-- `cache_invalidate_va`, with block chaining or without. -/
def cacheInvalidateVa (chaining : Bool) (c : JitCache) (va satp : Word) : Word × JitCache :=
  if c.cache.capacity = 0 then (0, c)
  else if chaining ∧ c.pageIndexIncomplete = false then
    invalidateWhere (indexHit va satp) (c.pageIndex (pageBucket va)) 0 c
  else invalidateWhere (scanHit va satp) c.listed 0 c

end JitCache

/-! ## Sequences of calls -/

inductive JitOp (env : SysEnv)
  /-- A block is translated and put; `cache_put` and `page_index_insert` may not get their memory. -/
  | put (key : Word) (t : BuiltBlock env) (satp : Word) (alloc indexAlloc : Bool)
  | get (key : Word) (update : Bool)
  | invalidateSatp (satp : Word)
  | invalidateVa (va satp : Word)

namespace JitOp

variable {env : SysEnv}

def exec (c : JitCache) : JitOp env → Option JitCache
  | .put key t satp alloc indexAlloc => c.insertBlock key (t.block satp) alloc indexAlloc
  | .get key update => some { c with cache := (c.cache.cacheGet key update).2 }
  | .invalidateSatp satp => some (c.cacheInvalidateSatp satp).2
  | .invalidateVa va satp => some (c.cacheInvalidateVa true va satp).2

/-- The block that a `cache_put` without memory has taken out and put back. -/
def loses (c : JitCache) : JitOp env → Option Ref
  | .put key _ _ false _ => (c.cache.takes key c.fresh).map fun r => r.2.value
  | _ => none

end JitOp

variable {env : SysEnv}

def jitRun : List (JitOp env) → JitCache → Option JitCache
  | [], c => some c
  | op :: ops, c => (op.exec c).bind (jitRun ops)

/-- The blocks that failed calls of `cache_put` have put back. -/
def lostBlocks : List (JitOp env) → JitCache → List Ref
  | [], _ => []
  | op :: ops, c => (op.loses c).toList ++ ((op.exec c).elim [] (lostBlocks ops))

/-! ## The alive values -/

namespace Cache

variable {V : Type} {c c' : Cache V} {p : EntryPtr} {e : CacheEntry V} {key : Word} {value : V}

def aliveValue (c : Cache V) (p : EntryPtr) : Option V :=
  (c.entry p).bind fun e => if e.alive then some e.value else none

theorem aliveValue_eq_some {v : V} :
    c.aliveValue p = some v ↔ ∃ e, c.entry p = some e ∧ e.alive = true ∧ e.value = v := by
  rw [aliveValue, Option.bind_eq_some_iff]
  refine exists_congr fun e => and_congr_right fun _ => ?_
  cases e.alive <;> simp

theorem aliveValue_create {system : Bool} {bits : Nat} (h : cacheCreate V system bits = some c) :
    c.aliveValue = fun _ => none := by
  unfold cacheCreate at h
  split_ifs at h
  cases h
  rfl

theorem aliveValue_update (entry : EntryPtr → Option (CacheEntry V)) (d : Option (CacheEntry V)) :
    (fun q => (Function.update entry p d q).bind fun e => if e.alive then some e.value else none) =
      Function.update (fun q => (entry q).bind fun e => if e.alive then some e.value else none) p
        (d.bind fun e => if e.alive then some e.value else none) := by
  funext q
  by_cases hq : q = p
  · rw [hq, Function.update_self, Function.update_self]
  · rw [Function.update_of_ne hq, Function.update_of_ne hq]

theorem aliveValue_retire (c : Cache V) (p : EntryPtr) (e : CacheEntry V) :
    (c.retire p e).aliveValue = Function.update c.aliveValue p none :=
  aliveValue_update c.entry (some { e with alive := false })

theorem aliveValue_add (c : Cache V) (key : Word) (value : V) (freq : Word) :
    (c.add key value freq).aliveValue = Function.update c.aliveValue c.fresh (some value) :=
  aliveValue_update c.entry (some { value, alive := true, key, freq })

theorem aliveValue_drop (hp : c.entry p = some e) (ha : e.alive = false) : (c.drop p).aliveValue = c.aliveValue := by
  refine (aliveValue_update c.entry none).trans (Function.update_eq_self_iff.mpr ?_)
  rw [hp]
  simp [ha]

theorem aliveValue_setFreq (hp : c.entry p = some e) (freq : Word) :
    (c.setEntry p { e with freq }).aliveValue = c.aliveValue := by
  refine (aliveValue_update c.entry (some { e with freq })).trans (Function.update_eq_self_iff.mpr ?_)
  rw [hp]
  rfl

theorem aliveValue_putNew {found : Found} (hrevived : c.RevivedOk found) (h : c.putNew found key value = some c') :
    c'.aliveValue = Function.update c.aliveValue c.fresh (some value) := by
  obtain ⟨-, c₁, hadd, hghost⟩ := putNew_cases h
  have h₁ : c₁.aliveValue = Function.update c.aliveValue c.fresh (some value) := by
    obtain ⟨-, rfl⟩ | ⟨q, e, rfl, hq, rfl⟩ := addFound_cases hadd
    · exact aliveValue_add c key value 1
    · obtain ⟨d, hd, halive⟩ := hrevived q rfl
      rw [aliveValue_add, aliveValue_drop hd halive]
      rfl
  obtain rfl | ⟨q, d, hd, halive, rfl⟩ := hghost
  · exact h₁
  · rw [aliveValue_drop hd halive, h₁]

theorem Wf.cachePut_aliveValue [DecidableEq V] (h : c.Wf) {alloc : Bool} {r : Option V}
    (hput : c.cachePut key value alloc = some (r, c')) :
    (c.takes key value = none ∧ r = none ∧
        c'.aliveValue = if alloc then Function.update c.aliveValue c.fresh (some value) else c.aliveValue) ∨
      ∃ p e, c.takes key value = some (p, e) ∧ c.aliveValue p = some e.value ∧
        (alloc = false ∧ r = none ∧ c'.aliveValue = c.aliveValue ∨
          alloc = true ∧ r = some e.value ∧
            c'.aliveValue = Function.update (Function.update c.aliveValue p none) c.fresh (some value)) := by
  obtain ⟨found, hfind, hcases⟩ := cachePut_cases hput
  obtain ⟨hrevived, -, -⟩ := findPut_some (h.bucket_entry _) (h.order _) hfind
  obtain ⟨htakes, -, rfl, ⟨rfl, rfl⟩ | ⟨rfl, hnew⟩⟩ | ⟨p, e, htakes, -, hp, ha, hcases⟩ := hcases
  · exact .inl ⟨htakes, rfl, rfl⟩
  · exact .inl ⟨htakes, rfl, aliveValue_putNew hrevived hnew⟩
  · refine .inr ⟨p, e, htakes, aliveValue_eq_some.mpr ⟨e, hp, ha, rfl⟩, ?_⟩
    obtain ⟨rfl, rfl, rfl⟩ | ⟨rfl, rfl, hnew⟩ := hcases
    · refine .inl ⟨rfl, rfl, ?_⟩
      rw [h.retire_restore hp ha]
      rfl
    · refine .inr ⟨rfl, rfl, ?_⟩
      rw [aliveValue_putNew (hrevived.retire p e) hnew, aliveValue_retire]
      rfl

theorem cacheGet_aliveValue (c : Cache V) (key : Word) (update : Bool) :
    (c.cacheGet key update).2.aliveValue = c.aliveValue := by
  unfold Cache.cacheGet
  split
  · rfl
  · rename_i p e hfirst
    obtain ⟨-, hp, -⟩ := firstOf_some hfirst
    split_ifs
    · rfl
    · exact aliveValue_setFreq hp _
    · rfl

theorem Bounded.cachePut_wf [DecidableEq V] (h : c.Bounded) (hwf : c.Wf) {alloc : Bool} {r : Option V}
    (hput : c.cachePut key value alloc = some (r, c')) : c'.Wf := by
  obtain ⟨found, hfind, -⟩ := cachePut_cases hput
  obtain ⟨r', c'', hput', hwf', -⟩ := cachePut_found hwf h.pos h.size_le h.ghost_le hfind alloc
  rw [hput] at hput'
  cases hput'
  exact hwf'

end Cache

/-! ## Partial functions without repetitions -/

section OneToOne

variable {α β : Type} [DecidableEq α] {f : α → Option β} {a : α} {v : β}

def OneToOne (f : α → Option β) : Prop := ∀ x y b, f x = some b → f y = some b → x = y

theorem OneToOne.update_none (h : OneToOne f) (a : α) : OneToOne (Function.update f a none) := by
  have hsub : ∀ x b, Function.update f a none x = some b → f x = some b := by
    intro x b hx
    by_cases hxa : x = a
    · rw [hxa, Function.update_self] at hx
      cases hx
    · rwa [Function.update_of_ne hxa] at hx
  exact fun x y b hx hy => h x y b (hsub x b hx) (hsub y b hy)

theorem OneToOne.update_some (h : OneToOne f) (hv : ∀ x, f x ≠ some v) (a : α) :
    OneToOne (Function.update f a (some v)) := by
  intro x y b hx hy
  by_cases hxa : x = a
  · by_cases hya : y = a
    · rw [hxa, hya]
    · rw [hxa, Function.update_self] at hx
      rw [Function.update_of_ne hya, ← hx] at hy
      exact absurd hy (hv y)
  · rw [Function.update_of_ne hxa] at hx
    by_cases hya : y = a
    · rw [hya, Function.update_self] at hy
      rw [← hy] at hx
      exact absurd hx (hv x)
    · rw [Function.update_of_ne hya] at hy
      exact h x y b hx hy

theorem OneToOne.mem_update_none (h : OneToOne f) (ha : f a = some v) (b : β) :
    (∃ x, Function.update f a none x = some b) ↔ (∃ x, f x = some b) ∧ b ≠ v := by
  constructor
  · rintro ⟨x, hx⟩
    by_cases hxa : x = a
    · rw [hxa, Function.update_self] at hx
      cases hx
    · rw [Function.update_of_ne hxa] at hx
      exact ⟨⟨x, hx⟩, fun hb => hxa (h x a b hx (hb ▸ ha))⟩
  · rintro ⟨⟨x, hx⟩, hb⟩
    refine ⟨x, ?_⟩
    rw [Function.update_of_ne, hx]
    rintro rfl
    exact hb (Option.some.inj (hx.symm.trans ha))

theorem mem_update_some (ha : f a = none) (v b : β) :
    (∃ x, Function.update f a (some v) x = some b) ↔ (∃ x, f x = some b) ∨ b = v := by
  constructor
  · rintro ⟨x, hx⟩
    by_cases hxa : x = a
    · rw [hxa, Function.update_self] at hx
      exact .inr (Option.some.inj hx).symm
    · rw [Function.update_of_ne hxa] at hx
      exact .inl ⟨x, hx⟩
  · rintro (⟨x, hx⟩ | rfl)
    · refine ⟨x, ?_⟩
      rw [Function.update_of_ne, hx]
      rintro rfl
      rw [ha] at hx
      cases hx
    · exact ⟨a, Function.update_self _ _ _⟩

end OneToOne

/-! ## What the index files -/

namespace JitCache

/-- The index holds the blocks of a set, each once and under its page. -/
structure Files (c : JitCache) (S : Ref → Prop) : Prop where
  nodup : ∀ i, (c.pageIndex i).Nodup
  sound : ∀ i r, r ∈ c.pageIndex i → S r ∧ ∃ b, c.block r = some b ∧ pageBucket b.pcStart = i
  complete : c.pageIndexIncomplete = false → ∀ r b, S r → c.block r = some b → r ∈ c.pageIndex (pageBucket b.pcStart)

namespace Files

variable {c c' : JitCache} {S S' : Ref → Prop} {r : Ref} {b : CachedBlock}

theorem congr (h : c.Files S) (hS : ∀ q, S q ↔ S' q) : c.Files S' := by
  obtain rfl : S = S' := funext fun q => propext (hS q)
  exact h

theorem keep (h : c.Files S) (hindex : c'.pageIndex = c.pageIndex)
    (hincomplete : c'.pageIndexIncomplete = c.pageIndexIncomplete)
    (hblock : ∀ q, S q → (c'.block q).map CachedBlock.pcStart = (c.block q).map CachedBlock.pcStart) : c'.Files S := by
  refine ⟨fun i => by rw [hindex]; exact h.nodup i, fun i q hq => ?_, fun hc q b' hq hb' => ?_⟩
  · rw [hindex] at hq
    obtain ⟨hS, b, hb, hi⟩ := h.sound i q hq
    have hsame := hblock q hS
    rw [hb, Option.map_some, Option.map_eq_some_iff] at hsame
    obtain ⟨b', hb', hpc⟩ := hsame
    exact ⟨hS, b', hb', by rw [hpc, hi]⟩
  · have hsame := hblock q hq
    rw [hb', Option.map_some, eq_comm, Option.map_eq_some_iff] at hsame
    obtain ⟨b, hb, hpc⟩ := hsame
    rw [hindex, ← hpc]
    exact h.complete (hincomplete ▸ hc) q b hq hb

theorem remove (h : c.Files S) (hb : c.block r = some b) :
    (c.pageIndexRemove r b).Files fun q => S q ∧ q ≠ r := by
  have hmem : ∀ i q, q ∈ (c.pageIndexRemove r b).pageIndex i ↔ q ∈ c.pageIndex i ∧ q ≠ r := by
    intro i q
    change q ∈ Function.update c.pageIndex (pageBucket b.pcStart) _ i ↔ _
    by_cases hi : i = pageBucket b.pcStart
    · rw [hi, Function.update_self, (h.nodup _).mem_erase_iff, and_comm]
    · rw [Function.update_of_ne hi, iff_self_and]
      rintro hq rfl
      obtain ⟨-, b', hb', hi'⟩ := h.sound i q hq
      rw [hb] at hb'
      cases hb'
      exact hi hi'.symm
  refine ⟨fun i => ?_, fun i q hq => ?_, fun hc q b' hq hb' => ?_⟩
  · change (Function.update c.pageIndex (pageBucket b.pcStart) _ i).Nodup
    by_cases hi : i = pageBucket b.pcStart
    · rw [hi, Function.update_self]
      exact (h.nodup _).erase r
    · rw [Function.update_of_ne hi]
      exact h.nodup i
  · obtain ⟨hq, hne⟩ := (hmem i q).mp hq
    obtain ⟨hS, hfiled⟩ := h.sound i q hq
    exact ⟨⟨hS, hne⟩, hfiled⟩
  · exact (hmem _ q).mpr ⟨h.complete hc q b' hq.1 hb', hq.2⟩

theorem insert (h : c.Files S) (hr : ¬ S r) (hb : c.block r = some b) (alloc : Bool) :
    (c.pageIndexInsert r b alloc).Files fun q => S q ∨ q = r := by
  unfold pageIndexInsert
  split_ifs with halloc
  · have hmem : ∀ i q, q ∈ Function.update c.pageIndex (pageBucket b.pcStart)
        (r :: c.pageIndex (pageBucket b.pcStart)) i ↔ q ∈ c.pageIndex i ∨ (q = r ∧ i = pageBucket b.pcStart) := by
      intro i q
      by_cases hi : i = pageBucket b.pcStart
      · rw [hi, Function.update_self, List.mem_cons, or_comm, and_iff_left rfl]
      · rw [Function.update_of_ne hi]
        simp [hi]
    refine ⟨fun i => ?_, fun i q hq => ?_, fun hc q b' hq hb' => ?_⟩
    · change (Function.update c.pageIndex (pageBucket b.pcStart) _ i).Nodup
      by_cases hi : i = pageBucket b.pcStart
      · rw [hi, Function.update_self]
        exact (h.nodup _).cons fun hin => hr (h.sound _ r hin).1
      · rw [Function.update_of_ne hi]
        exact h.nodup i
    · obtain hq | ⟨hq, hi⟩ := (hmem i q).mp hq
      · obtain ⟨hS, hfiled⟩ := h.sound i q hq
        exact ⟨.inl hS, hfiled⟩
      · rw [hq]
        exact ⟨.inr rfl, b, hb, hi.symm⟩
    · obtain hq | hq := hq
      · exact (hmem (pageBucket b'.pcStart) q).mpr (.inl (h.complete hc q b' hq hb'))
      · have hsame : c.block r = some b' := hq ▸ hb'
        rw [hb, Option.some.injEq] at hsame
        rw [← hsame]
        exact (hmem (pageBucket b.pcStart) q).mpr (.inr ⟨hq, rfl⟩)
  · refine ⟨h.nodup, fun i q hq => ?_, fun hc => (nomatch hc)⟩
    obtain ⟨hS, hfiled⟩ := h.sound i q hq
    exact ⟨.inl hS, hfiled⟩

end Files

end JitCache

/-! ## The loops of the invalidation -/

namespace JitCache

variable {hit : CachedBlock → Bool} {c : JitCache}

/-- What the loops do to a block that they visit. -/
def mark (hit : CachedBlock → Bool) (b : CachedBlock) : CachedBlock :=
  if hit b then { b with invalidated := true } else b

theorem mark_mark (hit : CachedBlock → Bool) (b : CachedBlock) : mark hit (mark hit b) = mark hit b := by
  unfold mark
  split_ifs <;> rfl

def visit (hit : CachedBlock → Bool) (c : JitCache) (r : Ref) : JitCache :=
  { c with block := Function.update c.block r ((c.block r).map (mark hit)) }

theorem visit_of_fixed {r : Ref} (h : (c.block r).map (mark hit) = c.block r) : c.visit hit r = c := by
  rw [visit, h, Function.update_eq_self]

theorem invalidateWhere_cons (hit : CachedBlock → Bool) (r : Ref) (rs : List Ref) (count : Word) (c : JitCache) :
    invalidateWhere hit (r :: rs) count c =
      invalidateWhere hit rs (if (c.block r).any hit then count + 1 else count) (c.visit hit r) := by
  rw [invalidateWhere]
  cases hb : c.block r with
  | none =>
    rw [visit_of_fixed (by rw [hb]; rfl)]
    rfl
  | some b =>
    cases hhit : hit b with
    | false =>
      rw [visit_of_fixed (by simp [hb, mark, hhit])]
      simp [hhit]
    | true => simp [visit, mark, hb, hhit]

/-- **The blocks after a loop.** -/
theorem invalidateWhere_eq (hit : CachedBlock → Bool) (rs : List Ref) (count : Word) (c : JitCache) :
    (invalidateWhere hit rs count c).2 =
      { c with block := fun r => if r ∈ rs then (c.block r).map (mark hit) else c.block r } := by
  induction rs generalizing count c with
  | nil => rfl
  | cons r rs ih =>
    rw [invalidateWhere_cons, ih]
    simp only [visit]
    congr 1
    funext q
    by_cases hq : q = r
    · subst hq
      have htwice : mark hit ∘ mark hit = mark hit := funext (mark_mark hit)
      rw [Function.update_self, if_pos List.mem_cons_self, Option.map_map, htwice, ite_self]
    · rw [Function.update_of_ne hq]
      simp [hq]

/-- The number of blocks that a loop invalidates. -/
theorem invalidateWhere_count (hit : CachedBlock → Bool) {rs : List Ref} (hrs : rs.Nodup)
    (count : Word) (c : JitCache) :
    (invalidateWhere hit rs count c).1 = count + BitVec.ofNat 32 (rs.countP fun r => (c.block r).any hit) := by
  induction rs generalizing count c with
  | nil => simp [invalidateWhere]
  | cons r rs ih =>
    obtain ⟨hr, hrest⟩ := List.nodup_cons.mp hrs
    have hother : (rs.countP fun q => ((c.visit hit r).block q).any hit) = rs.countP fun q => (c.block q).any hit := by
      refine List.countP_congr fun q hq => ?_
      rw [show (c.visit hit r).block q = c.block q from Function.update_of_ne (ne_of_mem_of_not_mem hq hr) _ _]
    rw [invalidateWhere_cons, ih hrest, hother, List.countP_cons]
    split_ifs
    · rw [BitVec.ofNat_add, add_right_comm, add_assoc]
      rfl
    · rw [add_zero]

end JitCache

/-! ## The invariant -/

def JitCache.Alive (c : JitCache) (r : Ref) : Prop := ∃ p, c.cache.aliveValue p = some r

/-- Outside the lost blocks the index is that of the alive ones. -/
structure JitCache.Indexed (c : JitCache) (lost : List Ref) : Prop where
  wf : c.cache.Wf
  bounded : c.cache.Bounded
  fresh : ∀ r, c.fresh ≤ r → c.block r = none
  alive : ∀ r, c.Alive r → ∃ b, c.block r = some b ∧ b.Fits
  one : OneToOne c.cache.aliveValue
  lost_lt : ∀ r ∈ lost, r < c.fresh
  files : c.Files fun r => c.Alive r ∧ r ∉ lost

namespace JitCache.Indexed

variable {c c' : JitCache} {lost : List Ref} {r : Ref} {b : CachedBlock} {key : Word}

theorem create {bits : Nat} (h : jitCacheCreate bits = some c) : c.Indexed [] := by
  obtain ⟨cache, hcache, rfl⟩ := Option.map_eq_some_iff.mp h
  have hnone := Cache.aliveValue_create hcache
  have hdead : ∀ r, ¬ ({ cache } : JitCache).Alive r := by
    rintro r ⟨p, hp⟩
    rw [hnone] at hp
    cases hp
  exact
    { wf := .create hcache, bounded := .create hcache
      fresh := fun _ _ => rfl
      alive := fun r hr => absurd hr (hdead r)
      one := by
        intro x y b hx
        rw [hnone] at hx
        cases hx
      lost_lt := fun _ h => (nomatch h)
      files := ⟨fun _ => List.nodup_nil, fun _ _ h => (nomatch h), fun _ r _ hr => absurd hr.1 (hdead r)⟩ }

theorem lt_fresh (h : c.Indexed lost) (hr : c.Alive r) : r < c.fresh := by
  obtain ⟨b, hb, -⟩ := h.alive r hr
  by_contra hle
  rw [h.fresh r (not_lt.mp hle)] at hb
  cases hb

/-- The blocks change, but not those that are in the cache. -/
theorem keep (h : c.Indexed lost) (hcache : c'.cache = c.cache) (hindex : c'.pageIndex = c.pageIndex)
    (hincomplete : c'.pageIndexIncomplete = c.pageIndexIncomplete) (hle : c.fresh ≤ c'.fresh)
    (hfresh : ∀ r, c'.fresh ≤ r → c'.block r = none)
    (hblock : ∀ r b, c.Alive r → c.block r = some b →
      ∃ b', c'.block r = some b' ∧ b'.pcStart = b.pcStart ∧ b'.pcEnd = b.pcEnd) : c'.Indexed lost := by
  have halive : ∀ r, c'.Alive r ↔ c.Alive r := fun r => by rw [Alive, Alive, hcache]
  refine
    { wf := hcache ▸ h.wf, bounded := hcache ▸ h.bounded, fresh := hfresh
      alive := fun r hr => ?_
      one := hcache ▸ h.one
      lost_lt := fun r hr => (h.lost_lt r hr).trans_le hle
      files := ?_ }
  · obtain ⟨b, hb, hfits⟩ := h.alive r ((halive r).mp hr)
    obtain ⟨b', hb', hstart, hend⟩ := hblock r b ((halive r).mp hr) hb
    refine ⟨b', hb', ?_⟩
    have hsize : b'.size = b.size := by rw [CachedBlock.size, CachedBlock.size, hstart, hend]
    have hroom : b'.room = b.room := by rw [CachedBlock.room, CachedBlock.room, hstart]
    exact ⟨hsize ▸ hfits.pos, by rw [hsize, hroom]; exact hfits.le⟩
  · refine (h.files.keep hindex hincomplete fun r hr => ?_).congr fun r => and_congr_left' (halive r).symm
    obtain ⟨b, hb, -⟩ := h.alive r hr.1
    obtain ⟨b', hb', hstart, -⟩ := hblock r b hr.1 hb
    rw [hb, hb', Option.map_some, Option.map_some, hstart]

theorem alloc (h : c.Indexed lost) (b : CachedBlock) :
    ({ c with block := Function.update c.block c.fresh (some b), fresh := c.fresh + 1 } : JitCache).Indexed lost := by
  refine h.keep rfl rfl rfl (Nat.le_succ _) (fun r hr => ?_) fun r b' hr hb' => ⟨b', ?_, rfl, rfl⟩
  · have hlt : c.fresh < r := hr
    exact (Function.update_of_ne hlt.ne' _ _).trans (h.fresh r hlt.le)
  · exact (Function.update_of_ne (h.lt_fresh hr).ne _ _).trans hb'

theorem free (h : c.Indexed lost) (hr : ¬ c.Alive r) :
    ({ c with block := Function.update c.block r none } : JitCache).Indexed lost := by
  refine h.keep rfl rfl rfl le_rfl (fun q hq => ?_) fun q b hq hb => ⟨b, ?_, rfl, rfl⟩
  · by_cases hqr : q = r
    · rw [hqr]
      exact Function.update_self _ _ _
    · exact (Function.update_of_ne hqr _ _).trans (h.fresh q hq)
  · exact (Function.update_of_ne (fun hqr : q = r => hr (hqr ▸ hq)) _ _).trans hb

theorem invalidated (h : c.Indexed lost) (hit : CachedBlock → Bool) (rs : List Ref) (count : Word) :
    (invalidateWhere hit rs count c).2.Indexed lost := by
  rw [invalidateWhere_eq]
  refine h.keep rfl rfl rfl le_rfl (fun r hr => ?_) fun r b hr hb => ?_
  · have hnone := h.fresh r hr
    simp [hnone]
  · have hmark : (mark hit b).pcStart = b.pcStart ∧ (mark hit b).pcEnd = b.pcEnd := by
      unfold mark
      split_ifs <;> exact ⟨rfl, rfl⟩
    by_cases hmem : r ∈ rs
    · exact ⟨mark hit b, by simp [hmem, hb], hmark⟩
    · exact ⟨b, by simp [hmem, hb], rfl, rfl⟩

/-- The entries change, but not the alive values. -/
theorem recache (h : c.Indexed lost) {cache' : Cache Ref} (hwf : cache'.Wf) (hbounded : cache'.Bounded)
    (hsame : cache'.aliveValue = c.cache.aliveValue) : ({ c with cache := cache' } : JitCache).Indexed lost := by
  have halive : ∀ r, ({ c with cache := cache' } : JitCache).Alive r ↔ c.Alive r :=
    fun r => by rw [Alive, Alive, hsame]
  have hfiles : ({ c with cache := cache' } : JitCache).Files fun r => c.Alive r ∧ r ∉ lost :=
    h.files.keep rfl rfl fun _ _ => rfl
  exact
    { wf := hwf, bounded := hbounded, fresh := h.fresh
      alive := fun r hr => h.alive r ((halive r).mp hr)
      one := by rw [hsame]; exact h.one
      lost_lt := h.lost_lt
      files := hfiles.congr fun r => and_congr_left' (halive r).symm }

theorem lose (h : c.Indexed lost) (hr : c.Alive r) (hb : c.block r = some b) :
    (c.pageIndexRemove r b).Indexed (r :: lost) :=
  { wf := h.wf, bounded := h.bounded, fresh := h.fresh, alive := h.alive, one := h.one
    lost_lt := List.forall_mem_cons.mpr ⟨h.lt_fresh hr, h.lost_lt⟩
    files := (h.files.remove hb).congr fun q => by
      rw [List.mem_cons, not_or, and_assoc, and_comm (a := q ∉ lost)]
      rfl }

/-- A block goes into the cache, and another one may have gone out of it. -/
theorem add (h : c.Indexed lost) (taken : Ref → Prop) {alloc : Bool} (hr : c.block r = some b) (hfits : b.Fits)
    (hnot : ¬ c.Alive r) (hlost : r ∉ lost) {cache' : Cache Ref} (hwf : cache'.Wf) (hbounded : cache'.Bounded)
    (hone : OneToOne cache'.aliveValue)
    (hmem : ∀ q, (∃ p, cache'.aliveValue p = some q) ↔ (c.Alive q ∧ ¬ taken q) ∨ q = r) {c₁ : JitCache}
    (hblock : c₁.block = c.block) (hfresh : c₁.fresh = c.fresh) (hcache : c₁.cache = cache')
    (hfiles : c₁.Files fun q => (c.Alive q ∧ q ∉ lost) ∧ ¬ taken q) : (c₁.pageIndexInsert r b alloc).Indexed lost := by
  have halive : ∀ q, (c₁.pageIndexInsert r b alloc).Alive q ↔ (c.Alive q ∧ ¬ taken q) ∨ q = r := fun q => by
    rw [Alive, pageIndexInsert_cache, hcache]
    exact hmem q
  refine
    { wf := ?_, bounded := ?_, fresh := ?_, alive := fun q hq => ?_, one := ?_, lost_lt := ?_, files := ?_ }
  · rwa [pageIndexInsert_cache, hcache]
  · rwa [pageIndexInsert_cache, hcache]
  · rw [pageIndexInsert_fresh, pageIndexInsert_block, hblock, hfresh]
    exact h.fresh
  · rw [pageIndexInsert_block, hblock]
    obtain ⟨hq, -⟩ | rfl := (halive q).mp hq
    · exact h.alive q hq
    · exact ⟨b, hr, hfits⟩
  · rwa [pageIndexInsert_cache, hcache]
  · rw [pageIndexInsert_fresh, hfresh]
    exact h.lost_lt
  · refine (hfiles.insert (fun hS => hnot hS.1.1) (by rw [hblock, hr]) alloc).congr fun q => ?_
    rw [halive]
    constructor
    · rintro (⟨⟨hq, hql⟩, hqt⟩ | rfl)
      · exact ⟨.inl ⟨hq, hqt⟩, hql⟩
      · exact ⟨.inr rfl, hlost⟩
    · rintro ⟨⟨hq, hqt⟩ | rfl, hql⟩
      · exact .inl ⟨⟨hq, hql⟩, hqt⟩
      · exact .inr rfl

/-- **One call of `cache_put`.** -/
theorem cachePut (h : c.Indexed lost) (hr : c.block r = some b) (hfits : b.Fits) (hnot : ¬ c.Alive r)
    (hlost : r ∉ lost) {alloc indexAlloc : Bool} {replaced : Option Ref}
    (hput : c.cachePut key r b alloc indexAlloc = some (replaced, c')) :
    c'.Indexed ((if alloc then none else (c.cache.takes key r).map fun x => x.2.value).toList ++ lost) ∧
      c'.block = c.block ∧ c'.fresh = c.fresh ∧ ∀ v, replaced = some v → ¬ c'.Alive v := by
  obtain ⟨⟨replaced', cache'⟩, hcache, hput⟩ := Option.bind_eq_some_iff.mp hput
  obtain ⟨c₁, hremove, hput⟩ := Option.bind_eq_some_iff.mp hput
  cases hput
  have hwf := h.bounded.cachePut_wf h.wf hcache
  have hbounded := h.bounded.cachePut h.wf hcache
  have hfree : c.cache.aliveValue c.cache.fresh = none := by
    rw [Cache.aliveValue, h.wf.fresh _ le_rfl]
    rfl
  obtain ⟨htakes, rfl, hvalue⟩ | ⟨p, e, htakes, hp, hcases⟩ := h.wf.cachePut_aliveValue hcache
  · -- nothing is taken out
    rw [removeTaken, htakes] at hremove
    obtain rfl : c = c₁ := Option.some.inj hremove
    cases alloc with
    | false => exact ⟨by simpa [htakes] using h.recache hwf hbounded hvalue, rfl, rfl, fun v hv => (nomatch hv)⟩
    | true =>
      rw [if_pos rfl] at hvalue
      refine ⟨?_, by simp, by simp, fun v hv => (nomatch hv)⟩
      refine h.add (fun _ => False) hr hfits hnot hlost hwf hbounded ?_ (fun q => ?_) rfl rfl rfl ?_
      · rw [hvalue]
        exact h.one.update_some (fun x hx => hnot ⟨x, hx⟩) _
      · rw [hvalue, mem_update_some hfree, not_false_eq_true, and_true]
        rfl
      · exact (h.files.congr fun q => (and_iff_left not_false).symm).keep rfl rfl fun _ _ => rfl
  · have hv : c.Alive e.value := ⟨p, hp⟩
    obtain ⟨bv, hbv, -⟩ := h.alive e.value hv
    rw [removeTaken, htakes] at hremove
    simp only [hbv, Option.map_some, Option.some.injEq] at hremove
    subst hremove
    obtain ⟨rfl, rfl, hvalue⟩ | ⟨rfl, rfl, hvalue⟩ := hcases
    · refine ⟨?_, rfl, rfl, fun v hv => (nomatch hv)⟩
      simpa [htakes] using (h.lose hv hbv).recache hwf hbounded hvalue
    · have hmem : ∀ q, (∃ x, cache'.aliveValue x = some q) ↔ (c.Alive q ∧ ¬ q = e.value) ∨ q = r := by
        intro q
        rw [hvalue, mem_update_some, h.one.mem_update_none hp]
        · rfl
        · by_cases hpf : c.cache.fresh = p
          · rw [hpf, Function.update_self]
          · rw [Function.update_of_ne hpf, hfree]
      refine ⟨?_, by simp; rfl, by simp; rfl, ?_⟩
      · refine h.add (fun q => q = e.value) hr hfits hnot hlost hwf hbounded ?_ hmem rfl rfl rfl
          ((h.files.remove hbv).keep rfl rfl fun _ _ => rfl)
        rw [hvalue]
        refine (h.one.update_none p).update_some (fun x hx => ?_) _
        exact hnot ((h.one.mem_update_none hp r).mp ⟨x, hx⟩).1
      · rintro v hv' halive
        cases hv'
        rw [Alive, if_pos rfl, pageIndexInsert_cache] at halive
        obtain ⟨-, hne⟩ | heq := (hmem e.value).mp halive
        · exact hne rfl
        · exact hnot (heq ▸ hv)

theorem insertBlock (h : c.Indexed lost) (hfits : b.Fits) {alloc indexAlloc : Bool}
    (hput : c.insertBlock key b alloc indexAlloc = some c') :
    c'.Indexed ((if alloc then none else (c.cache.takes key c.fresh).map fun x => x.2.value).toList ++ lost) := by
  obtain ⟨⟨replaced, c₁⟩, hcache, hfree⟩ := Option.bind_eq_some_iff.mp hput
  cases hfree
  have hnot : ¬ c.Alive c.fresh := fun hr => lt_irrefl _ (h.lt_fresh hr)
  obtain ⟨h₁, hblock, hfresh, hdead⟩ := (h.alloc b).cachePut (Function.update_self _ _ _) hfits hnot
    (fun hr => lt_irrefl _ (h.lost_lt _ hr)) hcache
  cases replaced with
  | none => exact h₁
  | some v => exact h₁.free (hdead v rfl)

variable {env : SysEnv}

/-- **One call.** -/
theorem exec (h : c.Indexed lost) {op : JitOp env} (hop : op.exec c = some c') :
    c'.Indexed ((op.loses c).toList ++ lost) := by
  cases op with
  | put key t satp alloc indexAlloc =>
    have hput := h.insertBlock (t.fits satp) hop
    cases alloc <;> exact hput
  | get key update =>
    cases hop
    exact h.recache (h.wf.cacheGet key update).1 (h.bounded.cacheGet h.wf update)
      (Cache.cacheGet_aliveValue c.cache key update)
  | invalidateSatp satp =>
    cases hop
    rw [cacheInvalidateSatp, if_neg h.bounded.pos.ne']
    exact h.invalidated _ _ _
  | invalidateVa va satp =>
    cases hop
    rw [cacheInvalidateVa, if_neg h.bounded.pos.ne']
    split_ifs <;> exact h.invalidated _ _ _

/-- **Every sequence of calls.** -/
theorem run (h : c.Indexed lost) {ops : List (JitOp env)} (hrun : jitRun ops c = some c') :
    ∃ lost', c'.Indexed lost' ∧ ∀ r, r ∈ lost' ↔ r ∈ lostBlocks ops c ∨ r ∈ lost := by
  induction ops generalizing c lost with
  | nil =>
    cases hrun
    exact ⟨lost, h, fun r => by simp [lostBlocks]⟩
  | cons op ops ih =>
    obtain ⟨c₁, hop, hrun⟩ := Option.bind_eq_some_iff.mp hrun
    obtain ⟨lost', h', hlost'⟩ := ih (h.exec hop) hrun
    refine ⟨lost', h', fun r => ?_⟩
    rw [hlost', lostBlocks, hop, Option.elim_some, List.mem_append, List.mem_append, or_left_comm, or_assoc]

end JitCache.Indexed

end Rv32emu
