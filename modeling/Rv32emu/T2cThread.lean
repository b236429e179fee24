import Rv32emu.CodeLookup
import Rv32emu.Seqlock

/-!
# The T2C thread

`t2c_runloop` compiles blocks beside the thread that runs the guest. What the two threads share: the pool `block_mp`,
the blocks and the cache they are found in, the LLVM engines, `jit_cache` and `inline_cache`. Every load and store of
an element of `jit_cache` is a step of its own, and so are the read and the write of the pool's list by the calls
that can overlap; what a thread does to the rest while it holds `cache_lock` is one step, for nothing else reads it
meanwhile.

* `CacheWriter` : `jit_cache_update`, `jit_cache_clear`, `jit_cache_clear_page`, store by store;
* `LookStage` : the code of an indirect jump, load by load;
* `T2cWorld.step` : the main thread allocates a block, translates it, puts it into the cache and removes the replaced
  one (`block_find_or_translate`), executes a fence, flushes the code cache or an indirect jump; the T2C thread takes
  a block, compiles it and publishes the code, or frees the block (`t2c_compile`);
* `CacheWriter.run_alone`, `look_alone` : what the two do undisturbed is `JitCacheOp.exec` and `lookup`.
-/

namespace Rv32emu

open Llvm

/-! ## The writers of `jit_cache` -/

namespace JitCacheOp

def key : JitCacheOp → BitVec 64
  | .update key _ => key
  | _ => 0

def entry : JitCacheOp → Option Word
  | .update _ entry => entry
  | _ => none

def slots : JitCacheOp → List (BitVec 64)
  | .update key _ => [jitCachePos key]
  | _ => (List.range nJitCacheEntries.toNat).map (BitVec.ofNat 64)

def hits : JitCacheOp → BitVec 64 → Bool
  | .clearPage va satp => keyInPage va satp
  | _ => fun _ => true

end JitCacheOp

/-- What comes next at the element at hand; from `mark` on with the sequence number that was loaded. -/
inductive WriteStage
  | visit | load | mark (seq : Word) | entry (seq : Word) | key (seq : Word) | close (seq : Word)

structure CacheWriter where
  op : JitCacheOp
  todo : List (BitVec 64)
  stage : WriteStage := .visit

namespace CacheWriter

def start (op : JitCacheOp) : CacheWriter := { op, todo := op.slots }

def step (cache : CodeTab) (w : CacheWriter) : CodeTab × CacheWriter :=
  match w.todo with
  | [] => (cache, w)
  | i :: rest =>
    let store (c : CodeSlot) := Function.update cache i c
    match w.stage with
    | .visit => (cache, if w.op.hits (cache i).key then { w with stage := .load } else { w with todo := rest })
    | .load => (cache, { w with stage := .mark (cache i).seq })
    | .mark seq => (store { cache i with seq := seq + 1 }, { w with stage := .entry seq })
    | .entry seq => (store { cache i with entry := w.op.entry }, { w with stage := .key seq })
    | .key seq => (store { cache i with key := w.op.key }, { w with stage := .close seq })
    | .close seq => (store { cache i with seq := seq + 2 }, { w with todo := rest, stage := .visit })

def done (w : CacheWriter) : Bool := w.todo.isEmpty

end CacheWriter

/-! ## The indirect jump -/

/-- What comes next: the inline cache; the loads of `seq`, `key`, `entry` and again of `seq` in `jit_cache`; the
call; or the return to the interpreter. -/
inductive LookStage
  | inline | seq | key (seq1 : Word) | entry (seq1 : Word) | recheck (seq1 : Word) (entry : Option Word)
  | found (func : Word) | fallback

/-- The code of `t2c_jit_cache_helper`; `ic` and `jc` are the indices into the two caches. -/
def LookStage.step (key ic jc : BitVec 64) (cache inline : CodeTab) : LookStage → CodeTab × LookStage
  | .inline =>
    match (inline ic).entry with
    | some func => (inline, if (inline ic).key = key then .found func else .seq)
    | none => (inline, .seq)
  | .seq => (inline, if (cache jc).seq &&& 1 = 0 then .key (cache jc).seq else .fallback)
  | .key seq1 => (inline, if (cache jc).key = key then .entry seq1 else .fallback)
  | .entry seq1 => (inline, .recheck seq1 (cache jc).entry)
  | .recheck seq1 (some func) =>
    if (cache jc).seq = seq1 then
      (Function.update inline ic { inline ic with key, entry := some func }, .found func)
    else (inline, .fallback)
  | .recheck _ none => (inline, .fallback)
  | .found func => (inline, .found func)
  | .fallback => (inline, .fallback)

/-! ## The shared state -/

/-- `block_t`, as far as both threads use it. `func` is also the name of `llvm_engine`, which is always written
beside it. -/
structure T2cBlock where
  key : BitVec 64 := 0
  pcEnd : Word := 0
  func : Option Word := none
  hot2 : Bool := false
  isCompiling : Bool := false
  shouldFree : Bool := false
  invalidated : Bool := false

/-- An LLVM engine. `key` is the key of the block it was made from; a block has got its function (`shared`), and a
fence has covered the key since the block was traced (`stale`). The code reads none of the three. -/
structure T2cEngine where
  key : BitVec 64
  shared : Bool := false
  stale : Bool := false

/-- What `block_find_or_translate` has of the pool before it takes the lock: `mpool_alloc` has read the list of the
free elements, or the element is its own, and is being translated. -/
inductive BlockAlloc
  | none
  | taking (free : List Nat)
  | taken (block : Nat)

/-- What `cache_put` does with a new block. -/
inductive PutOutcome
  | failed
  | added
  | replaced (block : Nat)

/-- The thread that runs the guest, beside its `BlockAlloc`. `lag` counts the stores to the sequence number that the
lookup has loaded; the code does not know it. -/
inductive MainThread
  | idle
  | evict (block : Nat) (w : CacheWriter)
  | fence (va : Option Word) (satp : Word) (w : CacheWriter)
  | flush (w : CacheWriter)
  | look (key ic jc : BitVec 64) (lag : Nat) (stage : LookStage)

/-- The thread that compiles; `stale` as in `T2cEngine`. In `freeing`, `mpool_free` has read the list of the free
elements. -/
inductive T2cThread
  | idle
  | compiling (block : Nat) (stale : Bool)
  | compiled (block : Nat) (func : Option Word)
  | publishing (block : Nat) (w : CacheWriter)
  | freeing (block : Nat) (free : List Nat)

namespace BlockAlloc

def isNone : BlockAlloc → Bool
  | none => true
  | _ => false

def block : BlockAlloc → Option Nat
  | taken b => some b
  | _ => .none

/-- `mpool_alloc` is at work. -/
def takes : BlockAlloc → Bool
  | taking _ => true
  | _ => false

end BlockAlloc

namespace MainThread

def isIdle : MainThread → Bool
  | idle => true
  | _ => false

/-- The thread holds `cache_lock`; `code_cache_flush` does not take it. -/
def locks : MainThread → Bool
  | evict .. | fence .. => true
  | _ => false

/-- The thread is at work in `jit_cache`. -/
def writer : MainThread → Option CacheWriter
  | evict _ w | fence _ _ w | flush w => some w
  | _ => none

def wrote (w : CacheWriter) : MainThread → MainThread
  | evict b _ => evict b w
  | fence va satp _ => fence va satp w
  | flush _ => flush w
  | m => m

def evicted : MainThread → Option Nat
  | evict b _ => some b
  | _ => none

/-- Another thread has turned `cache` into `cache'`. -/
def lagged (cache cache' : CodeTab) : MainThread → MainThread
  | look key ic jc lag stage =>
    look key ic jc (lag + if (cache' jc).seq = (cache jc).seq then 0 else 1) stage
  | m => m

def lag : MainThread → Nat
  | look _ _ _ lag _ => lag
  | _ => 0

end MainThread

namespace T2cThread

def isIdle : T2cThread → Bool
  | idle => true
  | _ => false

/-- The thread is at work in `jit_cache`. -/
def writer : T2cThread → Option CacheWriter
  | publishing _ w => some w
  | _ => none

/-- `mpool_free` is at work. -/
def frees : T2cThread → Bool
  | freeing .. => true
  | _ => false

/-- The thread holds `cache_lock`. -/
def locks : T2cThread → Bool
  | publishing .. | freeing .. => true
  | _ => false

def block : T2cThread → Option Nat
  | idle => none
  | compiling b _ | compiled b _ | publishing b _ | freeing b _ => some b

/-- The block whose `is_compiling` the thread has set. -/
def compiles : T2cThread → Option Nat
  | compiling b _ | compiled b _ => some b
  | _ => none

end T2cThread

structure T2cWorld where
  jitCache : CodeTab := jitCacheInit
  inlineCache : CodeTab := fun _ => {}
  /-- The list of the free elements of `block_mp`, and the number of all. -/
  free : List Nat := []
  size : Nat := 0
  /-- The elements that are in use. -/
  blocks : Nat → Option T2cBlock := fun _ => none
  /-- The blocks in `block_cache`. -/
  cached : Nat → Bool := fun _ => false
  /-- The engines that have not been disposed, by the function they hold. -/
  engines : Word → Option T2cEngine := fun _ => none
  alloc : BlockAlloc := .none
  main : MainThread := .idle
  t2c : T2cThread := .idle
  /-- The elements that nobody will free; the code does not know them. -/
  lost : List Nat := []

def inlineCacheClearKey (cache : CodeTab) (key : BitVec 64) : CodeTab := fun i =>
  if key ≠ 0 ∧ (cache i).key = key then { cache i with key := 0, entry := none } else cache i

/-- `inline_cache_clear` and `inline_cache_clear_page`. -/
def inlineCacheFence (va : Option Word) (satp : Word) (cache : CodeTab) : CodeTab :=
  match va with
  | none => fun _ => {}
  | some va => fun i =>
    if keyInPage va satp (cache i).key = true then { cache i with key := 0, entry := none } else cache i

/-- The blocks of the address space, or those that start in the page. -/
def fenceCovers (va : Option Word) (satp : Word) (key : BitVec 64) : Bool :=
  keySatp key = satp ∧ ∀ va' ∈ va, keyPc key &&& ~~~pageOffsetMask = va' &&& ~~~pageOffsetMask

def T2cBlock.lastPage (blk : T2cBlock) : Word :=
  (if keyPc blk.key < blk.pcEnd then blk.pcEnd - 1 else keyPc blk.key) &&& ~~~pageOffsetMask

/-- The test of `cache_invalidate_satp` and `cache_invalidate_va`; the latter also finds the blocks that run into the
page when it scans the whole list, for want of a complete page index. -/
def T2cBlock.covered (blk : T2cBlock) (va : Option Word) (satp : Word) (scan : Bool) : Bool :=
  fenceCovers va satp blk.key ||
    scan && decide (keySatp blk.key = satp ∧ ∀ va' ∈ va,
      keyPc blk.key &&& ~~~pageOffsetMask ≤ va' &&& ~~~pageOffsetMask ∧ va' &&& ~~~pageOffsetMask ≤ blk.lastPage)

/-- The operation of a fence on `jit_cache`. -/
def fenceOp (va : Option Word) (satp : Word) : JitCacheOp :=
  match va with
  | none => .clear
  | some va => .clearPage va satp

/-- An evicted block is taken out of `jit_cache` if it has code. -/
def T2cBlock.withdraw (blk : T2cBlock) : CacheWriter :=
  let op := .update blk.key none
  if blk.func.isSome then .start op else { op, todo := [] }

namespace T2cWorld

variable (s : T2cWorld)

/-- `t2c_dispose_engine` -/
def disposed (func : Option Word) : Word → Option T2cEngine :=
  match func with
  | none => s.engines
  | some func => Function.update s.engines func none

/-! ### The main thread -/

/-- `block_alloc` calls `mpool_alloc`, without the lock. -/
def startAlloc : Option T2cWorld :=
  if s.main.isIdle ∧ s.alloc.isNone then some { s with alloc := .taking s.free } else none

/-- `mpool_extend`; the first arena is that of `mpool_create`. -/
def extend (n : Nat) : Option T2cWorld :=
  match s.alloc with
  | .taking [] =>
    let free := List.range' s.size n
    some { s with free, size := s.size + n, alloc := .taking free }
  | _ => none

/-- The first free element is taken. If there is none, `block_find_or_translate` returns. -/
def endAlloc : Option T2cWorld :=
  match s.alloc with
  | .taking [] => some { s with alloc := .none }
  | .taking (b :: free) =>
    some { s with free, blocks := Function.update s.blocks b (some {}), alloc := .taken b }
  | _ => none

/-- `block_translate` fails, and `block_find_or_translate` returns without the block. -/
def fail : Option T2cWorld :=
  match s.alloc with
  | .taken b => some { s with alloc := .none, lost := b :: s.lost }
  | _ => none

/-- The translated block is put into the cache, under the lock. If `cache_put` finds no memory, the block is run all
the same, but no eviction will find it. -/
def put (key : BitVec 64) (pcEnd : Word) (outcome : PutOutcome) : Option T2cWorld :=
  match s.alloc with
  | .taken b =>
    if s.main.isIdle ∧ ¬ s.t2c.locks then
      let blocks := Function.update s.blocks b (some { key, pcEnd })
      let cached := Function.update s.cached b true
      match outcome with
      | .failed => some { s with blocks, alloc := .none, lost := b :: s.lost }
      | .added => some { s with blocks, cached, alloc := .none }
      | .replaced r =>
        if s.cached r then
          (s.blocks r).map fun blk =>
            { s with
              blocks := Function.update blocks r (some { blk with shouldFree := blk.shouldFree || blk.isCompiling })
              cached := Function.update cached r false
              alloc := .none
              main := .evict r blk.withdraw }
        else none
    else none
  | _ => none

/-- The rest of `block_find_or_translate`: a block that the T2C thread compiles is left to that thread. -/
def endEvict (r : Nat) : Option T2cWorld :=
  (s.blocks r).map fun blk =>
    let inlineCache := inlineCacheClearKey s.inlineCache blk.key
    if blk.isCompiling then { s with inlineCache, main := .idle }
    else
      { s with
        inlineCache
        engines := s.disposed blk.func
        blocks := Function.update s.blocks r none
        free := r :: s.free
        main := .idle }

/-- `sfence.vma` and `fence.i`, also of the handler that runs when a fetch of `block_translate` traps. -/
def fence (va : Option Word) (satp : Word) (scan : Bool) : Option T2cWorld :=
  if s.main.isIdle ∧ ¬ s.t2c.locks then
    some { s with
      blocks := fun b => (s.blocks b).map fun blk =>
        if s.cached b ∧ blk.covered va satp scan ∧ ¬ blk.invalidated then
          { blk with invalidated := true, hot2 := false }
        else blk
      main := .fence va satp (.start (fenceOp va satp)) }
  else none

/-- The thread's own compilation becomes stale as well. -/
def staleT2c (va : Option Word) (satp : Word) : T2cThread :=
  match s.t2c with
  | .compiling b stale =>
    .compiling b (stale || ((s.blocks b).map fun blk => fenceCovers va satp blk.key).getD false)
  | t => t

def endFence (va : Option Word) (satp : Word) : T2cWorld :=
  { s with
    inlineCache := inlineCacheFence va satp s.inlineCache
    engines := fun func => (s.engines func).map fun e => { e with stale := e.stale || fenceCovers va satp e.key }
    main := .idle
    t2c := s.staleT2c va satp }

/-- The part of `code_cache_flush` that concerns the T2C thread. -/
def flush : Option T2cWorld :=
  if s.main.isIdle then some { s with main := .flush (.start .clear) } else none

def endFlush : T2cWorld := { s with inlineCache := fun _ => {}, main := .idle }

/-- An indirect jump to `target`. -/
def look (system : Bool) (target satp : Word) : Option T2cWorld :=
  let key := lookupKey system target satp
  let index := lookupIndex system target satp
  if s.main.isIdle then some { s with main := .look key (index 0x3ff) (index 0xfff) 0 .inline } else none

def mainStep : Option T2cWorld :=
  match s.main with
  | .idle => none
  | .look key ic jc lag stage =>
    let (inline, stage') := stage.step key ic jc s.jitCache s.inlineCache
    let lag := match stage with
      | .seq => 0
      | _ => lag
    some { s with inlineCache := inline, main := .look key ic jc lag stage' }
  | m => m.writer.map fun w => { s with jitCache := (w.step s.jitCache).1, main := m.wrote (w.step s.jitCache).2 }

def mainEnd : Option T2cWorld :=
  match s.main with
  | .evict r w => if w.done then s.endEvict r else none
  | .fence va satp w => if w.done then some (s.endFence va satp) else none
  | .flush w => if w.done then some s.endFlush else none
  | .look _ _ _ _ (.found _) | .look _ _ _ _ .fallback => some { s with main := .idle }
  | _ => none

/-! ### The T2C thread -/

/-- `t2c_runloop` finds a block in the cache, and `t2c_compile` traces it unless it has code. -/
def take (b : Nat) : Option T2cWorld :=
  if s.t2c.isIdle ∧ ¬ s.main.locks ∧ s.cached b then
    (s.blocks b).map fun blk =>
      if blk.hot2 then s
      else
        { s with
          blocks := Function.update s.blocks b (some { blk with isCompiling := true })
          t2c := .compiling b false }
  else none

/-- LLVM has made an engine; a function has an address that no other engine has. -/
def finish (func : Option Word) : Option T2cWorld :=
  match s.t2c with
  | .compiling b stale =>
    match func with
    | none => some { s with t2c := .compiled b none }
    | some f =>
      if (s.engines f).isNone then
        (s.blocks b).map fun blk =>
          { s with
            engines := Function.update s.engines f (some { key := blk.key, stale })
            t2c := .compiled b (some f) }
      else none
  | _ => none

/-- Under the lock again: a block that is not in the cache any more is freed, and code that a fence has covered is
dropped. Otherwise the code is published. -/
def publish : Option T2cWorld :=
  match s.t2c with
  | .compiled b func =>
    if s.main.locks then none
    else
      (s.blocks b).map fun blk =>
        let blocks := Function.update s.blocks b (some { blk with isCompiling := false })
        match func with
        | none => { s with blocks, t2c := if blk.shouldFree then .freeing b s.free else .idle }
        | some f =>
          if blk.shouldFree then { s with blocks, engines := s.disposed (some f), t2c := .freeing b s.free }
          else if blk.invalidated then { s with blocks, engines := s.disposed (some f), t2c := .idle }
          else
            { s with
              blocks := Function.update s.blocks b (some { blk with isCompiling := false, func := some f })
              engines := Function.update s.engines f ((s.engines f).map fun e => { e with shared := true })
              t2c := .publishing b (.start (.update blk.key (some f))) }
  | _ => none

def endFree : Option T2cWorld :=
  match s.t2c with
  | .freeing b free => some { s with blocks := Function.update s.blocks b none, free := b :: free, t2c := .idle }
  | _ => none

/-- One access of the T2C thread. -/
def t2cStep : Option T2cWorld :=
  match s.t2c with
  | .publishing b w =>
    let (cache, w) := w.step s.jitCache
    some { s with jitCache := cache, main := s.main.lagged s.jitCache cache, t2c := .publishing b w }
  | _ => none

def endPublish : Option T2cWorld :=
  match s.t2c with
  | .publishing b w =>
    if w.done then
      (s.blocks b).map fun blk =>
        { s with blocks := Function.update s.blocks b (some { blk with hot2 := true }), t2c := .idle }
    else none
  | _ => none

end T2cWorld

inductive T2cAct
  | startAlloc
  | extend (n : Nat)
  | endAlloc
  | fail
  | put (key : BitVec 64) (pcEnd : Word) (outcome : PutOutcome)
  | fence (va : Option Word) (satp : Word) (scan : Bool)
  | flush
  | look (system : Bool) (target satp : Word)
  | mainStep
  | mainEnd
  | take (b : Nat)
  | finish (func : Option Word)
  | publish
  | endFree
  | t2cStep
  | endPublish

def T2cWorld.step (s : T2cWorld) : T2cAct → Option T2cWorld
  | .startAlloc => s.startAlloc
  | .extend n => s.extend n
  | .endAlloc => s.endAlloc
  | .fail => s.fail
  | .put key pcEnd outcome => s.put key pcEnd outcome
  | .fence va satp scan => s.fence va satp scan
  | .flush => s.flush
  | .look system target satp => s.look system target satp
  | .mainStep => s.mainStep
  | .mainEnd => s.mainEnd
  | .take b => s.take b
  | .finish func => s.finish func
  | .publish => s.publish
  | .endFree => s.endFree
  | .t2cStep => s.t2cStep
  | .endPublish => s.endPublish

/-! ## Undisturbed -/

namespace CacheWriter

/-- The loop over the elements at the indices `l`. -/
def loop (op : JitCacheOp) : List (BitVec 64) → CodeTab → CodeTab
  | [], cache => cache
  | i :: rest, cache =>
    loop op rest
      (if op.hits (cache i).key then Function.update cache i ((cache i).write op.key op.entry) else cache)

def alone (x : CodeTab × CacheWriter) : CodeTab × CacheWriter := x.2.step x.1

theorem alone_loop (op : JitCacheOp) (l : List (BitVec 64)) (cache : CodeTab) :
    ∃ n, alone^[n] (cache, { op, todo := l }) = (loop op l cache, { op, todo := [] }) := by
  induction l generalizing cache with
  | nil => exact ⟨0, rfl⟩
  | cons i rest ih =>
    by_cases hit : op.hits (cache i).key = true
    · obtain ⟨n, hn⟩ := ih (Function.update cache i ((cache i).write op.key op.entry))
      refine ⟨n + 6, ?_⟩
      rw [loop, if_pos hit, ← hn, Function.iterate_add_apply]
      congr 1
      simp [alone, step, hit, CodeSlot.write]
    · obtain ⟨n, hn⟩ := ih cache
      refine ⟨n + 1, ?_⟩
      rw [loop, if_neg hit, ← hn, Function.iterate_add_apply]
      congr 1
      simp [alone, step, hit]

theorem loop_of_notMem (op : JitCacheOp) {l : List (BitVec 64)} {i : BitVec 64} (hi : i ∉ l) (cache : CodeTab) :
    loop op l cache i = cache i := by
  induction l generalizing cache with
  | nil => rfl
  | cons j rest ih =>
    obtain ⟨hij, hrest⟩ := not_or.mp (mt List.mem_cons.mpr hi)
    rw [loop, ih hrest]
    split
    · rw [Function.update_of_ne hij]
    · rfl

theorem loop_of_mem (op : JitCacheOp) {l : List (BitVec 64)} (hl : l.Nodup) {i : BitVec 64} (hi : i ∈ l)
    (cache : CodeTab) :
    loop op l cache i = if op.hits (cache i).key then (cache i).write op.key op.entry else cache i := by
  induction l generalizing cache with
  | nil => exact absurd hi List.not_mem_nil
  | cons j rest ih =>
    obtain ⟨hj, hrest⟩ := List.nodup_cons.mp hl
    rw [loop]
    rcases List.mem_cons.mp hi with rfl | hmem
    · rw [loop_of_notMem op hj]
      split
      · rw [Function.update_self]
      · rfl
    · have hne : i ≠ j := fun h => hj (h ▸ hmem)
      have hsame (c : CodeSlot) : Function.update cache j c i = cache i := Function.update_of_ne hne c cache
      rw [ih hrest hmem]
      split_ifs <;> simp_all

end CacheWriter

theorem mem_allSlots (i : BitVec 64) :
    i ∈ (List.range nJitCacheEntries.toNat).map (BitVec.ofNat 64) ↔ i.toNat < nJitCacheEntries.toNat := by
  rw [List.mem_map]
  constructor
  · rintro ⟨n, hn, rfl⟩
    rw [List.mem_range] at hn
    rw [BitVec.toNat_ofNat]
    exact lt_of_le_of_lt (Nat.mod_le _ _) hn
  · intro hi
    exact ⟨i.toNat, List.mem_range.mpr hi, BitVec.eq_of_toNat_eq (Nat.mod_eq_of_lt i.isLt)⟩

theorem allSlots_nodup : ((List.range nJitCacheEntries.toNat).map (BitVec.ofNat 64)).Nodup := by
  refine List.Nodup.map_on ?_ List.nodup_range
  intro m hm n hn h
  have hlt : nJitCacheEntries.toNat < 2 ^ 64 := by decide
  rw [List.mem_range] at hm hn
  have := congrArg BitVec.toNat h
  rwa [BitVec.toNat_ofNat, BitVec.toNat_ofNat, Nat.mod_eq_of_lt (by omega), Nat.mod_eq_of_lt (by omega)] at this

theorem JitCacheOp.slots_nodup (op : JitCacheOp) : op.slots.Nodup := by
  cases op with
  | update key entry => exact List.nodup_singleton _
  | clear => exact allSlots_nodup
  | clearPage va satp => exact allSlots_nodup

/-- **A writer that nobody disturbs performs its operation.** -/
theorem CacheWriter.run_alone (op : JitCacheOp) (cache : CodeTab) :
    ∃ n, alone^[n] (cache, start op) = (op.exec cache, { op, todo := [] }) := by
  obtain ⟨n, hn⟩ := alone_loop op op.slots cache
  refine ⟨n, hn.trans (congrArg (·, _) (funext fun i => ?_))⟩
  have hmem (h : i ∈ op.slots) := loop_of_mem op op.slots_nodup h cache
  have hnot (h : i ∉ op.slots) := loop_of_notMem op h cache
  cases op with
  | update key entry =>
    by_cases hi : i = jitCachePos key
    · subst hi
      rw [hmem (List.mem_singleton_self _), JitCacheOp.exec, jitCacheUpdate, Function.update_self]
      rfl
    · rw [hnot (fun h => hi (List.mem_singleton.mp h)), JitCacheOp.exec, jitCacheUpdate, Function.update_of_ne hi]
  | clear =>
    by_cases hi : i.toNat < nJitCacheEntries.toNat
    · rw [hmem ((mem_allSlots i).mpr hi)]
      exact (if_pos rfl).trans (if_pos ⟨hi, rfl⟩).symm
    · rw [hnot (mt (mem_allSlots i).mp hi)]
      exact (if_neg fun h => hi h.1).symm
  | clearPage va satp =>
    by_cases hi : i.toNat < nJitCacheEntries.toNat
    · rw [hmem ((mem_allSlots i).mpr hi)]
      exact if_congr (and_iff_right hi).symm rfl rfl
    · rw [hnot (mt (mem_allSlots i).mp hi)]
      exact (if_neg fun h => hi h.1).symm

/-- A lookup that nobody disturbs, step by step. -/
def lookAlone (key ic jc : BitVec 64) (cache : CodeTab) (x : CodeTab × LookStage) : CodeTab × LookStage :=
  x.2.step key ic jc cache x.1

section Alone

variable {key ic jc : BitVec 64} {cache inline : CodeTab} {func : Word}

theorem lookAlone_inline (hentry : (inline ic).entry = some func) (hkey : (inline ic).key = key) :
    (lookAlone key ic jc cache)^[5] (inline, .inline) = (inline, .found func) := by
  simp [lookAlone, LookStage.step, hentry, hkey]

/-- Behind a miss of the inline cache the lookup goes on with `jit_cache`. -/
theorem lookAlone_miss (hmiss : ¬ ((inline ic).key = key ∧ (inline ic).entry ≠ none)) :
    lookAlone key ic jc cache (inline, .inline) = (inline, .seq) := by
  simp only [lookAlone, LookStage.step]
  cases hentry : (inline ic).entry with
  | none => rfl
  | some f =>
    have hkey : (inline ic).key ≠ key := fun h => hmiss ⟨h, by rw [hentry]; exact Option.some_ne_none f⟩
    exact congrArg (inline, ·) (if_neg hkey)

theorem lookAlone_even (heven : (cache jc).seq &&& 1 = 0) :
    lookAlone key ic jc cache (inline, .seq) = (inline, .key (cache jc).seq) :=
  congrArg (inline, ·) (if_pos heven)

theorem lookAlone_key (hkey : (cache jc).key = key) (seq1 : Word) :
    lookAlone key ic jc cache (inline, .key seq1) = (inline, .entry seq1) :=
  congrArg (inline, ·) (if_pos hkey)

theorem lookAlone_entry (seq1 : Word) :
    lookAlone key ic jc cache (inline, .entry seq1) = (inline, .recheck seq1 (cache jc).entry) := rfl

theorem lookAlone_fallback (n : Nat) :
    (lookAlone key ic jc cache)^[n] (inline, .fallback) = (inline, .fallback) :=
  Function.iterate_fixed rfl n

theorem lookAlone_serves (hmiss : ¬ ((inline ic).key = key ∧ (inline ic).entry ≠ none))
    (h : (cache jc).Serves key func) :
    (lookAlone key ic jc cache)^[5] (inline, .inline) =
      (Function.update inline ic { inline ic with key, entry := some func }, .found func) := by
  obtain ⟨heven, hkey, hentry⟩ := h
  rw [Function.iterate_succ_apply, lookAlone_miss hmiss, Function.iterate_succ_apply, lookAlone_even heven,
    Function.iterate_succ_apply, lookAlone_key hkey, Function.iterate_succ_apply, lookAlone_entry, hentry]
  exact if_pos rfl

theorem lookAlone_falls_back (hmiss : ¬ ((inline ic).key = key ∧ (inline ic).entry ≠ none))
    (h : ∀ func, ¬ (cache jc).Serves key func) :
    (lookAlone key ic jc cache)^[5] (inline, .inline) = (inline, .fallback) := by
  rw [Function.iterate_succ_apply, lookAlone_miss hmiss, Function.iterate_succ_apply]
  by_cases heven : (cache jc).seq &&& 1 = 0
  · rw [lookAlone_even heven, Function.iterate_succ_apply]
    by_cases hkey : (cache jc).key = key
    · have hentry : (cache jc).entry = none :=
        Option.eq_none_iff_forall_ne_some.mpr fun f hf => h f ⟨heven, hkey, hf⟩
      rw [lookAlone_key hkey, Function.iterate_succ_apply, lookAlone_entry, hentry]
      rfl
    · have hback : lookAlone key ic jc cache (inline, .key (cache jc).seq) = (inline, .fallback) :=
        congrArg (inline, ·) (if_neg hkey)
      rw [hback, lookAlone_fallback]
  · have hback : lookAlone key ic jc cache (inline, .seq) = (inline, .fallback) := congrArg (inline, ·) (if_neg heven)
    rw [hback, lookAlone_fallback]

end Alone

/-- **A lookup that nobody disturbs** ends after five steps, and does what the code of the indirect jump does. -/
theorem look_alone (env : Env) (mb : BitVec 64) (system : Bool) (target : Word) (s : T2cState) :
    let index := lookupIndex system target s.cpu.csr.satp
    let x := (lookAlone (lookupKey system target s.cpu.csr.satp) (index 0x3ff) (index 0xfff) (s.tables .jitCache))^[5]
      (s.tables .inlineCache, .inline)
    (∃ func, x.2 = .found func ∧ lookup env mb system target s = enterCode env (.code func)
        { s with tables := Function.update s.tables .inlineCache x.1 }) ∨
      x = (s.tables .inlineCache, .fallback) ∧ lookup env mb system target s = some (.ret, (s.setPC target).flush) := by
  intro index x
  by_cases hhit : s.InlineHit system target
  · obtain ⟨hkey, hne⟩ := hhit
    obtain ⟨func, hentry⟩ := Option.ne_none_iff_exists'.mp hne
    have hx : x = (s.tables .inlineCache, .found func) := lookAlone_inline hentry hkey
    refine .inl ⟨func, congrArg Prod.snd hx, ?_⟩
    rw [hx, Function.update_eq_self]
    unfold lookup
    simp only [truth_bit_and, truth_bit, Bool.and_eq_true, beq_iff_eq, isCode_iff]
    rw [if_pos ⟨hkey, hne⟩, hentry]
    rfl
  · by_cases hserves : ∃ func, (s.tables .jitCache (index 0xfff)).Serves (lookupKey system target s.cpu.csr.satp) func
    · obtain ⟨func, hserves⟩ := hserves
      have hx := lookAlone_serves hhit hserves
      refine .inl ⟨func, congrArg Prod.snd hx, ?_⟩
      obtain ⟨heven, hkey, hentry⟩ := hserves
      dsimp only [T2cState.InlineHit] at hhit
      unfold lookup
      simp only [truth_bit_and, truth_bit, Bool.and_eq_true, beq_iff_eq, isCode_iff]
      rw [if_neg hhit, if_pos heven, if_pos hkey, hentry, if_pos ⟨trivial, Option.some_ne_none _⟩]
      change enterCode env (.code func) _ = enterCode env (.code func) _
      congr 1
      rw [show x = _ from hx]
      simp only [T2cState.setSlot, Function.update_self, Function.update_idem]
    · have hnone := not_exists.mp hserves
      exact .inr ⟨lookAlone_falls_back hhit hnone, lookup_falls_back env mb hhit hnone⟩

end Rv32emu
