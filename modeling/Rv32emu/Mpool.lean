import Rv32emu.ByteWord
import Mathlib.Data.List.Pairwise
import Mathlib.Data.List.Perm.Basic
import Mathlib.Order.Interval.Finset.Nat
import Mathlib.Tactic.Common

/-!
# The memory pool

`mpool.c` on a 64-bit host. The free list lies in the chunks; an access outside the arenas is `none`.

* `PoolConfig` : the arguments of `mpool_create`;
* `mpoolCreate`, `mpoolExtend`, `mpoolAlloc`, `mpoolCalloc`, `mpoolFree` : as in the source;
* `PoolState.freeList` : what `chunk_count` links from `free_chunk_head` lead to;
* `PoolState.Sound`, `OpSound` : each chunk is free or in use, and what one call does;
* `linkChunks_spec` : the loop that builds the list; `PoolInv` : the invariant;
* `mpool_sound_iff` : the pools that are sound.
-/

namespace Rv32emu

open ByteWord

/-! ## The pool -/

/-- Arithmetic on `size_t`. -/
def wrap64 (n : Nat) : Nat := n % 2 ^ 64

def sizeMax : Nat := 2 ^ 64 - 1

/-- `sizeof(memchunk_t)`. -/
def headerSize : Nat := 8

/-- The build and the arguments of `mpool_create`. -/
structure PoolConfig where
  /-- `getpagesize`, which is an `int`. -/
  pgsz : Nat
  /-- `HAVE_MMAP`. -/
  mmap : Bool
  poolSize : Nat
  chunkSize : Nat
  pgsz_pos : 0 < pgsz
  pgsz_lt : pgsz < 2 ^ 31
  chunkSize_pos : 0 < chunkSize
  chunkSize_le : chunkSize ≤ poolSize
  poolSize_lt : poolSize < 2 ^ 64

/-- `mpool_t`; of `area_t` the addresses `mapped`. -/
structure Mpool where
  chunkCount : Nat
  pageCount : Nat
  chunkSize : Nat
  freeChunkHead : Nat
  areas : List Nat

/-- The pool, the bytes of the arenas, and two things that are not in the source: the pointers that are in use, and
the chunks that the arenas have been cut into. -/
structure PoolState where
  mp : Mpool
  mem : Nat → BitVec 8
  live : List Nat := []
  chunks : List Nat

structure PoolHost where
  /-- The address of the new arena. -/
  arena : Option Nat
  /-- What is in it. -/
  bytes : Nat → BitVec 8
  /-- `malloc` succeeds. -/
  malloc : Bool

/-- `mem_arena`: `mmap` refuses an empty mapping. -/
def memArena (c : PoolConfig) (host : PoolHost) (sz : Nat) : Option Nat :=
  if c.mmap = true ∧ sz = 0 then none else host.arena

/-- `chunk->next = next`, in the arena of `size` bytes at `p`. -/
def setNext (p size chunk next : Nat) (mem : Nat → BitVec 8) : Option (Nat → BitVec 8) :=
  if p ≤ chunk ∧ chunk + headerSize ≤ p + size then some (store 8 mem chunk next) else none

/-- The loop that builds the free list, `k` turns from `cur` on. -/
def linkChunks (p size stride : Nat) : Nat → Nat → (Nat → BitVec 8) → Option (Nat × (Nat → BitVec 8))
  | 0, cur, mem => some (cur, mem)
  | k + 1, cur, mem => do
    let next := wrap64 (cur + stride)
    let mem ← setNext p size cur next mem
    linkChunks p size stride k next mem

/-- The chunks that the loop cuts an arena into. -/
def cutChunks (stride : Nat) : Nat → Nat → List Nat
  | 0, _ => []
  | n + 1, a => a :: cutChunks stride n (a + stride)

namespace PoolConfig

variable (c : PoolConfig)

/-- `pool_size` with room for a header. -/
def adjusted : Nat :=
  if c.poolSize < wrap64 (c.chunkSize + headerSize) then wrap64 (c.poolSize + headerSize) else c.poolSize

def pages : Nat := wrap64 (c.adjusted + c.pgsz - 1) / c.pgsz

def arenaSize : Nat := wrap64 (c.pages * c.pgsz)

def stride : Nat := headerSize + c.chunkSize

end PoolConfig

/-- `mpool_create`; `some none` is `NULL`. -/
def mpoolCreate (c : PoolConfig) (host : PoolHost) : Option (Option PoolState) :=
  if host.malloc = false then some none
  else if sizeMax - headerSize < c.chunkSize then some none
  else if wrap64 (sizeMax - c.pgsz + 1) < c.adjusted then some none
  else if sizeMax / c.pgsz < c.pages then some none
  else
    match memArena c host c.arenaSize with
    | none => some none
    | some p => do
      let chunkCount := c.adjusted / wrap64 c.stride
      -- `chunk_count - 1` is unsigned
      let (cur, mem) ← linkChunks p c.arenaSize (wrap64 c.stride) (wrap64 (chunkCount + sizeMax)) p host.bytes
      let mem ← setNext p c.arenaSize cur 0 mem
      let mp : Mpool :=
        { chunkCount, pageCount := c.pages, chunkSize := c.chunkSize, freeChunkHead := p, areas := [p] }
      return some { mp, mem, chunks := cutChunks (wrap64 c.stride) chunkCount p }

def grant (mem : Nat → BitVec 8) (p size : Nat) (bytes : Nat → BitVec 8) : Nat → BitVec 8 := fun a =>
  if p ≤ a ∧ a < p + size then bytes a else mem a

/-- `mpool_extend`; `some none` is `NULL`. -/
def mpoolExtend (c : PoolConfig) (host : PoolHost) (s : PoolState) : Option (Option PoolState) :=
  let size := wrap64 (s.mp.pageCount * c.pgsz)
  match memArena c host size with
  | none => some none
  | some p =>
    if host.malloc = false then some none
    else do
      let stride := wrap64 (headerSize + s.mp.chunkSize)
      let chunkCount := size / stride
      let (_, mem) ← linkChunks p size stride (wrap64 (chunkCount + sizeMax)) p (grant s.mem p size host.bytes)
      let mp := { s.mp with
        freeChunkHead := p, chunkCount := wrap64 (s.mp.chunkCount + chunkCount), areas := s.mp.areas ++ [p] }
      return some { s with mp, mem, chunks := s.chunks ++ cutChunks stride chunkCount p }

namespace PoolState

/-- The `n` bytes at `a` lie in an arena. -/
def InArena (c : PoolConfig) (s : PoolState) (a n : Nat) : Prop :=
  ∃ p ∈ s.mp.areas, p ≤ a ∧ a + n ≤ p + s.mp.pageCount * c.pgsz

instance (c : PoolConfig) (s : PoolState) (a n : Nat) : Decidable (s.InArena c a n) :=
  inferInstanceAs (Decidable (∃ p ∈ s.mp.areas, p ≤ a ∧ a + n ≤ p + s.mp.pageCount * c.pgsz))

end PoolState

def mpoolAllocHelper (c : PoolConfig) (s : PoolState) : Option (PoolState × Nat) :=
  let ptr := wrap64 (s.mp.freeChunkHead + headerSize)
  if s.InArena c s.mp.freeChunkHead headerSize then
    let mp := { s.mp with
      freeChunkHead := load 8 s.mem s.mp.freeChunkHead, chunkCount := wrap64 (s.mp.chunkCount + sizeMax) }
    some ({ s with mp, live := ptr :: s.live }, ptr)
  else none

/-- `!mp->chunk_count && !mpool_extend(mp)` is `some none`. -/
def mpoolReady (c : PoolConfig) (host : PoolHost) (s : PoolState) : Option (Option PoolState) :=
  if s.mp.chunkCount = 0 then mpoolExtend c host s else some (some s)

def mpoolAlloc (c : PoolConfig) (host : PoolHost) (s : PoolState) : Option (PoolState × Nat) := do
  match ← mpoolReady c host s with
  | none => return (s, 0)
  | some s => mpoolAllocHelper c s

/-- `memset(ptr, 0, n)`. -/
def clearBytes (mem : Nat → BitVec 8) (ptr n : Nat) : Nat → BitVec 8 := fun a =>
  if ptr ≤ a ∧ a < ptr + n then 0 else mem a

def clearChunk (c : PoolConfig) (s : PoolState) (ptr : Nat) : Option (PoolState × Nat) :=
  if s.InArena c ptr s.mp.chunkSize then some ({ s with mem := clearBytes s.mem ptr s.mp.chunkSize }, ptr) else none

def mpoolCalloc (c : PoolConfig) (host : PoolHost) (s : PoolState) : Option (PoolState × Nat) := do
  match ← mpoolReady c host s with
  | none => return (s, 0)
  | some s =>
    let (s, ptr) ← mpoolAllocHelper c s
    clearChunk c s ptr

def mpoolFree (c : PoolConfig) (target : Nat) (s : PoolState) : Option PoolState :=
  if target = 0 then some s
  else
    let ptr := target - headerSize
    if s.InArena c ptr headerSize then
      let mp := { s.mp with freeChunkHead := ptr, chunkCount := wrap64 (s.mp.chunkCount + 1) }
      some { s with mp, mem := store 8 s.mem ptr s.mp.freeChunkHead, live := s.live.erase target }
    else none

/-! ## Calls -/

/-- A call on the pool, or a write of its user to a chunk. -/
inductive PoolOp
  | alloc (host : PoolHost)
  | calloc (host : PoolHost)
  | free (target : Nat)
  | write (ptr off : Nat) (b : BitVec 8)

def PoolOp.run (c : PoolConfig) (s : PoolState) : PoolOp → Option (PoolState × Nat)
  | alloc host => mpoolAlloc c host s
  | calloc host => mpoolCalloc c host s
  | free target => (mpoolFree c target s).map fun s => (s, 0)
  | write ptr off b => some ({ s with mem := Function.update s.mem (ptr + off) b }, 0)

/-- The host gives an arena of `size` bytes that is not in use. -/
def PoolHost.Valid (size : Nat) (areas : List Nat) (host : PoolHost) : Prop :=
  ∀ p, host.arena = some p → 0 < p ∧ p + size ≤ 2 ^ 64 ∧ ∀ q ∈ areas, p + size ≤ q ∨ q + size ≤ p

/-- The user frees what is in use, and writes to it. -/
def PoolOp.Valid (c : PoolConfig) (s : PoolState) : PoolOp → Prop
  | alloc host => host.Valid (s.mp.pageCount * c.pgsz) s.mp.areas
  | calloc host => host.Valid (s.mp.pageCount * c.pgsz) s.mp.areas
  | free target => target ∈ s.live
  | write ptr off _ => ptr ∈ s.live ∧ off < c.chunkSize

inductive PoolReach (c : PoolConfig) : PoolState → Prop
  | create {host : PoolHost} {s : PoolState} (hhost : host.Valid c.arenaSize [])
      (h : mpoolCreate c host = some (some s)) : PoolReach c s
  | step {s s' : PoolState} {op : PoolOp} {r : Nat} (h : PoolReach c s) (hvalid : op.Valid c s)
      (hrun : op.run c s = some (s', r)) : PoolReach c s'

/-! ## Soundness -/

/-- The nodes that `k` links lead to. -/
def walk (mem : Nat → BitVec 8) : Nat → Nat → List Nat
  | 0, _ => []
  | k + 1, a => a :: walk mem k (load 8 mem a)

namespace PoolState

/-- The first `chunk_count` nodes from `free_chunk_head` on. -/
def freeList (s : PoolState) : List Nat := walk s.mem s.mp.chunkCount s.mp.freeChunkHead

def used (s : PoolState) : List Nat := s.live.map (· - headerSize)

/-- Every chunk is once in the free list or once in use; chunks do not overlap and lie in the arenas. -/
structure Sound (c : PoolConfig) (s : PoolState) : Prop where
  perm : (s.freeList ++ s.used).Perm s.chunks
  apart : s.chunks.Pairwise fun a b => a + c.stride ≤ b ∨ b + c.stride ≤ a
  inside : ∀ a ∈ s.chunks, s.InArena c a c.stride

/-- Nothing in the chunks in use has changed. -/
def Untouched (c : PoolConfig) (s s' : PoolState) : Prop :=
  ∀ ptr ∈ s.live, ∀ i < c.chunkSize, s'.mem (ptr + i) = s.mem (ptr + i)

/-- What an allocation does: the first free chunk is taken, after an extension if there is none. -/
inductive Allocated (host : PoolHost) (s s' : PoolState) : Nat → Prop
  | failed (hempty : s.freeList = []) (hhost : host.arena = none ∨ host.malloc = false) (hsame : s' = s) :
      Allocated host s s' 0
  | taken {a : Nat} {new : List Nat} (hnew : new = [] ∨ s.freeList = [])
      (hlist : s.freeList ++ new = a :: s'.freeList) (hlive : s'.live = (a + headerSize) :: s.live)
      (hchunks : s'.chunks = s.chunks ++ new) : Allocated host s s' (a + headerSize)

end PoolState

open PoolState

def OpSound (c : PoolConfig) (s s' : PoolState) (r : Nat) : PoolOp → Prop
  | .alloc host => Allocated host s s' r ∧ Untouched c s s'
  | .calloc host => Allocated host s s' r ∧ Untouched c s s' ∧ (r ≠ 0 → ∀ i < c.chunkSize, s'.mem (r + i) = 0)
  | .free target =>
    s'.freeList = (target - headerSize) :: s.freeList ∧ s'.live = s.live.erase target ∧ s'.chunks = s.chunks ∧
      Untouched c s s'
  | .write _ _ _ => s'.freeList = s.freeList ∧ s'.live = s.live ∧ s'.chunks = s.chunks

/-- `n` allocations while the host gives nothing. -/
def allocMany (c : PoolConfig) : Nat → PoolState → Option (List Nat × PoolState)
  | 0, s => some ([], s)
  | n + 1, s => do
    let (s, ptr) ← mpoolAlloc c ⟨none, fun _ => 0, false⟩ s
    let (ptrs, s) ← allocMany c n s
    return (ptr :: ptrs, s)

/-- The pools that a configuration leads to are sound, every call on them comes to its end and does what it should, and
every free chunk is given out again. -/
def PoolConfig.Sound (c : PoolConfig) : Prop :=
  (∀ host : PoolHost, host.Valid c.arenaSize [] → mpoolCreate c host ≠ none) ∧
    ∀ s, PoolReach c s → s.Sound c ∧
      (∃ s', allocMany c s.freeList.length s = some (s.freeList.map (· + headerSize), s')) ∧
      ∀ op : PoolOp, op.Valid c s → ∃ s' r, op.run c s = some (s', r) ∧ OpSound c s s' r op

/-- `pool_size += sizeof(memchunk_t)` wraps around. An empty arena is refused by `mmap`. -/
def PoolConfig.Wraps (c : PoolConfig) : Prop :=
  c.poolSize < c.stride ∧ c.stride < 2 ^ 64 ∧ 2 ^ 64 + (if c.mmap then 1 else 0) ≤ c.poolSize + headerSize

/-! ## The loop -/

section Loop

variable {mem mem' : Nat → BitVec 8} {stride n a : Nat}

theorem cutChunks_bounds {x : Nat} (h : x ∈ cutChunks stride n a) : a ≤ x ∧ x + stride ≤ a + n * stride := by
  induction n generalizing a with
  | zero => cases h
  | succ n ih =>
    rw [Nat.succ_mul]
    rcases List.mem_cons.mp h with rfl | hmem
    · exact ⟨Nat.le_refl _, by omega⟩
    · have hrest := ih hmem
      omega

theorem cutChunks_apart : (cutChunks stride n a).Pairwise fun x y => x + stride ≤ y ∨ y + stride ≤ x := by
  induction n generalizing a with
  | zero => exact List.Pairwise.nil
  | succ n ih => exact List.pairwise_cons.mpr ⟨fun y hy => .inl (cutChunks_bounds hy).1, ih⟩

theorem length_walk (mem : Nat → BitVec 8) (k head : Nat) : (walk mem k head).length = k := by
  induction k generalizing head with
  | zero => rfl
  | succ k ih => exact congrArg Nat.succ (ih _)

theorem walk_congr {k head : Nat} (h : ∀ x ∈ walk mem k head, ∀ i < 8, mem' (x + i) = mem (x + i)) :
    walk mem' k head = walk mem k head := by
  induction k generalizing head with
  | zero => rfl
  | succ k ih =>
    have hload : load 8 mem' head = load 8 mem head := load_congr (h head List.mem_cons_self)
    rw [walk, walk, hload, ih fun x hx => h x (List.mem_cons_of_mem _ hx)]

theorem wrap64_of_lt (h : n < 2 ^ 64) : wrap64 n = n := Nat.mod_eq_of_lt h

theorem linkChunks_succ (p size k cur : Nat) : linkChunks p size stride (k + 1) cur mem =
    (setNext p size cur (wrap64 (cur + stride)) mem).bind (linkChunks p size stride k (wrap64 (cur + stride))) := rfl

theorem setNext_inside {p size chunk next : Nat} (hle : p ≤ chunk) (hend : chunk + headerSize ≤ p + size) :
    setNext p size chunk next mem = some (store 8 mem chunk next) := if_pos ⟨hle, hend⟩

theorem linkChunks_leaves {p size cur : Nat}
    (h : ¬ (p ≤ wrap64 (cur + stride) ∧ wrap64 (cur + stride) + headerSize ≤ p + size)) (k : Nat) :
    linkChunks p size stride (k + 2) cur mem = none := by
  rw [linkChunks_succ]
  by_cases hfirst : p ≤ cur ∧ cur + headerSize ≤ p + size
  · rw [setNext_inside hfirst.1 hfirst.2]
    change linkChunks p size stride (k + 1) _ _ = none
    rw [linkChunks_succ, setNext, if_neg h]
    rfl
  · rw [setNext, if_neg hfirst]
    rfl

/-- **The loop links the chunks** of an arena, and changes nothing outside. -/
theorem linkChunks_spec (mem : Nat → BitVec 8) {p size k cur : Nat} (hp : p ≤ cur)
    (hfit : cur + (k + 1) * stride ≤ p + size)
    (hsize : p + size ≤ 2 ^ 64) (hstride : headerSize < stride) :
    ∃ mem', linkChunks p size stride k cur mem = some (cur + k * stride, mem') ∧
      (∀ x, x < cur ∨ cur + k * stride ≤ x → mem' x = mem x) ∧
      ∀ mem'' : Nat → BitVec 8, (∀ x, cur ≤ x → x < cur + k * stride → mem'' x = mem' x) →
        walk mem'' (k + 1) cur = cutChunks stride (k + 1) cur := by
  unfold headerSize at hstride
  induction k generalizing cur mem with
  | zero => exact ⟨mem, by rw [linkChunks, Nat.zero_mul, Nat.add_zero], fun _ _ => rfl, fun _ _ => rfl⟩
  | succ k ih =>
    rw [Nat.succ_mul, Nat.succ_mul] at hfit
    have hnext : wrap64 (cur + stride) = cur + stride := wrap64_of_lt (by omega)
    obtain ⟨mem', hrun, hframe, hwalk⟩ := @ih (store 8 mem cur (cur + stride)) (cur + stride) (by omega)
      (by rw [Nat.succ_mul]; omega)
    refine ⟨mem', ?_, fun x hx => ?_, fun mem'' hagree => ?_⟩
    · have hend : cur + headerSize ≤ p + size := by
        unfold headerSize
        omega
      rw [linkChunks_succ, hnext, setNext_inside hp hend]
      change linkChunks p size stride k (cur + stride) (store 8 mem cur (cur + stride)) = _
      rw [hrun, Nat.succ_mul, Nat.add_assoc, Nat.add_comm stride]
    · rw [Nat.succ_mul] at hx
      rw [hframe x (by omega)]
      rcases hx with hlt | hge
      · exact store_of_lt hlt
      · exact store_of_ge (by omega)
    · rw [Nat.succ_mul] at hagree
      have hsame : load 8 mem'' cur = load 8 (store 8 mem cur (cur + stride)) cur := load_congr fun i hi => by
        rw [hagree (cur + i) (by omega) (by omega), hframe (cur + i) (by omega)]
      have hload : load 8 mem'' cur = cur + stride := by
        rw [hsame, load_store (Nat.le_refl _)]
        exact Nat.mod_eq_of_lt (by omega : cur + stride < 2 ^ 64)
      rw [walk, hload, hwalk mem'' fun x hge hlt => hagree x (by omega) (by omega)]
      rfl

end Loop

/-! ## The invariant -/

structure PoolInv (c : PoolConfig) (s : PoolState) : Prop where
  sound : s.Sound c
  chunkSize : s.mp.chunkSize = c.chunkSize
  stride_le : c.stride ≤ s.mp.pageCount * c.pgsz
  size_lt : s.mp.pageCount * c.pgsz < 2 ^ 64
  areas : ∀ p ∈ s.mp.areas, 0 < p ∧ p + s.mp.pageCount * c.pgsz ≤ 2 ^ 64

section Inv

variable {c : PoolConfig} {s : PoolState}

theorem stride_eq (c : PoolConfig) : c.stride = c.chunkSize + 8 := Nat.add_comm _ _

theorem PoolInv.stride_lt (h : PoolInv c s) : c.stride < 2 ^ 64 := Nat.lt_of_le_of_lt h.stride_le h.size_lt

theorem PoolInv.bounds (h : PoolInv c s) {a : Nat} (ha : a ∈ s.chunks) : 0 < a ∧ a + c.stride ≤ 2 ^ 64 := by
  obtain ⟨p, hp, hle, hend⟩ := h.sound.inside a ha
  have harea := h.areas p hp
  omega

theorem PoolInv.nodup (h : PoolInv c s) : s.chunks.Nodup := by
  have hstride := stride_eq c
  exact h.sound.apart.imp fun hapart heq => by omega

theorem PoolInv.apart (h : PoolInv c s) {a b : Nat} (ha : a ∈ s.chunks) (hb : b ∈ s.chunks) (hne : a ≠ b) :
    a + c.stride ≤ b ∨ b + c.stride ≤ a := by
  have hsymm : Std.Symm fun a b => a + c.stride ≤ b ∨ b + c.stride ≤ a := ⟨fun _ _ => Or.symm⟩
  exact h.sound.apart.forall ha hb hne

theorem PoolInv.count_lt (h : PoolInv c s) : s.chunks.length < 2 ^ 64 := by
  have hsub : s.chunks.toFinset ⊆ Finset.Ico 1 (2 ^ 64) := by
    intro a ha
    have hbounds := h.bounds (List.mem_toFinset.mp ha)
    have hstride := stride_eq c
    exact Finset.mem_Ico.mpr ⟨hbounds.1, by omega⟩
  have hcard := Finset.card_le_card hsub
  rw [List.toFinset_card_of_nodup h.nodup, Nat.card_Ico] at hcard
  omega

theorem PoolInv.mem_free (h : PoolInv c s) {a : Nat} (ha : a ∈ s.freeList) : a ∈ s.chunks :=
  h.sound.perm.subset (List.mem_append_left _ ha)

theorem PoolInv.mem_used (h : PoolInv c s) {ptr : Nat} (hptr : ptr ∈ s.live) : ptr - headerSize ∈ s.chunks :=
  h.sound.perm.subset (List.mem_append_right _ (List.mem_map_of_mem hptr))

theorem PoolInv.live_gt (h : PoolInv c s) {ptr : Nat} (hptr : ptr ∈ s.live) : headerSize < ptr := by
  have hpos := (h.bounds (h.mem_used hptr)).1
  omega

theorem PoolInv.free_ne_used (h : PoolInv c s) {a ptr : Nat} (ha : a ∈ s.freeList) (hptr : ptr ∈ s.live) :
    a ≠ ptr - headerSize := by
  have hnodup := h.sound.perm.nodup_iff.mpr h.nodup
  exact (List.nodup_append.mp hnodup).2.2 a ha _ (List.mem_map_of_mem hptr)

theorem PoolInv.count_eq (s : PoolState) : s.freeList.length = s.mp.chunkCount := length_walk _ _ _

theorem PoolInv.count_le (h : PoolInv c s) : s.mp.chunkCount ≤ s.chunks.length := by
  rw [← h.sound.perm.length_eq, List.length_append, PoolInv.count_eq]
  exact Nat.le_add_right _ _

end Inv

/-! ## Allocation -/

section Alloc

variable {c : PoolConfig} {s : PoolState}

theorem freeList_of_empty (h : s.mp.chunkCount = 0) : s.freeList = [] := by
  unfold PoolState.freeList
  rw [h]
  rfl

theorem PoolInv.allocHelper (h : PoolInv c s) (hpos : s.mp.chunkCount ≠ 0) :
    ∃ a s', mpoolAllocHelper c s = some (s', a + headerSize) ∧ PoolInv c s' ∧ s.freeList = a :: s'.freeList ∧
      s'.live = (a + headerSize) :: s.live ∧ s'.chunks = s.chunks ∧ s'.mem = s.mem := by
  obtain ⟨k, hk⟩ := Nat.exists_eq_succ_of_ne_zero hpos
  have hlist : s.freeList = s.mp.freeChunkHead :: walk s.mem k (load 8 s.mem s.mp.freeChunkHead) := by
    unfold PoolState.freeList
    rw [hk]
    rfl
  have hhead : s.mp.freeChunkHead ∈ s.chunks := h.mem_free (hlist ▸ List.mem_cons_self)
  have hbounds := h.bounds hhead
  have hstride := stride_eq c
  have hchunk := c.chunkSize_pos
  have hcount : wrap64 (s.mp.chunkCount + sizeMax) = k := by
    have hle := h.count_le
    have hlt := h.count_lt
    unfold wrap64 sizeMax
    omega
  have hptr : wrap64 (s.mp.freeChunkHead + headerSize) = s.mp.freeChunkHead + headerSize := by
    refine wrap64_of_lt ?_
    unfold headerSize
    omega
  have hin : s.InArena c s.mp.freeChunkHead headerSize := by
    obtain ⟨p, hp, hle, hend⟩ := h.sound.inside _ hhead
    refine ⟨p, hp, hle, ?_⟩
    unfold headerSize
    omega
  let s' : PoolState :=
    { s with
      mp := { s.mp with freeChunkHead := load 8 s.mem s.mp.freeChunkHead, chunkCount := k }
      live := (s.mp.freeChunkHead + headerSize) :: s.live }
  have hrun : mpoolAllocHelper c s = some (s', s.mp.freeChunkHead + headerSize) := by
    unfold mpoolAllocHelper
    simp only [hptr, hcount]
    exact if_pos hin
  refine ⟨s.mp.freeChunkHead, s', hrun, ?_, hlist, rfl, rfl, rfl⟩
  refine ⟨⟨?_, h.sound.apart, h.sound.inside⟩, h.chunkSize, h.stride_le, h.size_lt, h.areas⟩
  have hperm := h.sound.perm
  rw [hlist] at hperm
  refine List.Perm.trans ?_ hperm
  have hused : s.mp.freeChunkHead + headerSize - headerSize = s.mp.freeChunkHead := Nat.add_sub_cancel _ _
  unfold PoolState.used
  rw [List.map_cons, hused, List.cons_append]
  exact List.perm_middle

theorem grant_of_apart {mem bytes : Nat → BitVec 8} {p size x : Nat} (h : x < p ∨ p + size ≤ x) :
    grant mem p size bytes x = mem x := if_neg (by omega)

/-- An extension puts a list of new chunks in the place of the empty one. -/
theorem PoolInv.extend (h : PoolInv c s) (hzero : s.mp.chunkCount = 0) {host : PoolHost}
    (hhost : host.Valid (s.mp.pageCount * c.pgsz) s.mp.areas) :
    (mpoolExtend c host s = some none ∧ (host.arena = none ∨ host.malloc = false)) ∨
      ∃ s₁, mpoolExtend c host s = some (some s₁) ∧ PoolInv c s₁ ∧ s₁.mp.chunkCount ≠ 0 ∧ s₁.live = s.live ∧
        s₁.chunks = s.chunks ++ s₁.freeList ∧ Untouched c s s₁ := by
  have hstride := stride_eq c
  have hchunk := c.chunkSize_pos
  have hle := h.stride_le
  have hsize : wrap64 (s.mp.pageCount * c.pgsz) = s.mp.pageCount * c.pgsz := wrap64_of_lt h.size_lt
  have harena : memArena c host (s.mp.pageCount * c.pgsz) = host.arena := if_neg (by omega)
  unfold mpoolExtend
  simp only [hsize, harena]
  cases hp : host.arena with
  | none => exact .inl ⟨rfl, .inl rfl⟩
  | some p =>
    by_cases hmalloc : host.malloc = false
    · exact .inl ⟨if_pos hmalloc, .inr hmalloc⟩
    obtain ⟨hppos, hpend, hpapart⟩ := hhost p hp
    have hwrap : wrap64 (headerSize + s.mp.chunkSize) = c.stride := by
      rw [h.chunkSize]
      exact wrap64_of_lt h.stride_lt
    -- at least one chunk fits
    obtain ⟨n, hn⟩ : ∃ n, s.mp.pageCount * c.pgsz / c.stride = n + 1 :=
      Nat.exists_eq_succ_of_ne_zero (Nat.div_pos hle (by omega)).ne'
    have hfit : (n + 1) * c.stride ≤ s.mp.pageCount * c.pgsz := hn ▸ Nat.div_mul_le_self _ _
    have hnlt : n + 1 < 2 ^ 64 := by
      have hself : n + 1 ≤ (n + 1) * c.stride := Nat.le_mul_of_pos_right _ (by omega)
      have hlt := h.size_lt
      omega
    have hturns : wrap64 (n + 1 + sizeMax) = n := by
      unfold wrap64 sizeMax
      omega
    have hcount : wrap64 (s.mp.chunkCount + (n + 1)) = n + 1 := by
      rw [hzero, Nat.zero_add]
      exact wrap64_of_lt hnlt
    obtain ⟨mem', hrun, hframe, hwalk⟩ := linkChunks_spec (grant s.mem p (s.mp.pageCount * c.pgsz) host.bytes)
      (Nat.le_refl p) (Nat.add_le_add_left hfit p) hpend (by unfold headerSize; omega : headerSize < c.stride)
    -- the bytes of the old arenas are still there
    have hkeep : ∀ q ∈ s.mp.areas, ∀ x, q ≤ x → x < q + s.mp.pageCount * c.pgsz → mem' x = s.mem x := by
      intro q hq x hqx hxq
      rw [Nat.succ_mul] at hfit
      rw [hframe x (by rcases hpapart q hq with hlt | hgt <;> omega),
        grant_of_apart (by rcases hpapart q hq with hlt | hgt <;> omega)]
    have hlist : walk mem' (n + 1) p = cutChunks c.stride (n + 1) p := hwalk mem' fun _ _ _ => rfl
    let s₁ : PoolState :=
      { s with
        mp := { s.mp with freeChunkHead := p, chunkCount := n + 1, areas := s.mp.areas ++ [p] }
        mem := mem'
        chunks := s.chunks ++ cutChunks c.stride (n + 1) p }
    have hfree : s₁.freeList = cutChunks c.stride (n + 1) p := hlist
    refine .inr ⟨s₁, ?_, ?_, Nat.succ_ne_zero n, rfl, congrArg (s.chunks ++ ·) hfree.symm, ?_⟩
    · change (if host.malloc = false then _ else _) = _
      rw [if_neg hmalloc, hwrap, hn, hturns, hrun, hcount]
      rfl
    · refine ⟨⟨?_, ?_, ?_⟩, h.chunkSize, h.stride_le, h.size_lt, ?_⟩
      · have hperm := h.sound.perm
        rw [freeList_of_empty hzero, List.nil_append] at hperm
        rw [hfree]
        exact List.perm_append_comm.trans (hperm.append_right _)
      · refine List.pairwise_append.mpr ⟨h.sound.apart, cutChunks_apart, fun a ha b hb => ?_⟩
        obtain ⟨q, hq, hqa, haq⟩ := h.sound.inside a ha
        have hb := cutChunks_bounds hb
        rcases hpapart q hq with hlt | hgt <;> omega
      · intro a ha
        rcases List.mem_append.mp ha with hold | hnew
        · obtain ⟨q, hq, hqa, haq⟩ := h.sound.inside a hold
          exact ⟨q, List.mem_append_left _ hq, hqa, haq⟩
        · have hb := cutChunks_bounds hnew
          exact ⟨p, List.mem_append_right _ List.mem_cons_self, hb.1, hb.2.trans (Nat.add_le_add_left hfit p)⟩
      · intro q hq
        rcases List.mem_append.mp hq with hold | hnew
        · exact h.areas q hold
        · rw [List.mem_singleton.mp hnew]
          exact ⟨hppos, hpend⟩
    · intro ptr hptr i hi
      obtain ⟨q, hq, hqa, haq⟩ := h.sound.inside _ (h.mem_used hptr)
      have hgt := h.live_gt hptr
      unfold headerSize at hqa haq hgt
      exact hkeep q hq (ptr + i) (by omega) (by omega)

/-- Before an allocation there is a chunk in the list, or the extension has failed. -/
theorem PoolInv.ready (h : PoolInv c s) {host : PoolHost} (hhost : host.Valid (s.mp.pageCount * c.pgsz) s.mp.areas) :
    (mpoolReady c host s = some none ∧ s.freeList = [] ∧ (host.arena = none ∨ host.malloc = false)) ∨
      ∃ s₁ new, mpoolReady c host s = some (some s₁) ∧ PoolInv c s₁ ∧ s₁.mp.chunkCount ≠ 0 ∧ s₁.live = s.live ∧
        (new = [] ∨ s.freeList = []) ∧ s₁.freeList = s.freeList ++ new ∧ s₁.chunks = s.chunks ++ new ∧
        Untouched c s s₁ := by
  unfold mpoolReady
  by_cases hzero : s.mp.chunkCount = 0
  · rw [if_pos hzero]
    have hempty := freeList_of_empty hzero
    rcases h.extend hzero hhost with ⟨hrun, hfail⟩ | ⟨s₁, hrun, hinv, hpos, hlive, hchunks, hframe⟩
    · exact .inl ⟨hrun, hempty, hfail⟩
    · refine .inr ⟨s₁, s₁.freeList, hrun, hinv, hpos, hlive, .inr hempty, ?_, hchunks, hframe⟩
      rw [hempty, List.nil_append]
  · rw [if_neg hzero]
    exact .inr ⟨s, [], rfl, h, hzero, rfl, .inl rfl, (List.append_nil _).symm, (List.append_nil _).symm,
      fun _ _ _ _ => rfl⟩

theorem PoolInv.alloc (h : PoolInv c s) {host : PoolHost} (hhost : host.Valid (s.mp.pageCount * c.pgsz) s.mp.areas) :
    ∃ s' r, mpoolAlloc c host s = some (s', r) ∧ Allocated host s s' r ∧ Untouched c s s' ∧ PoolInv c s' := by
  unfold mpoolAlloc
  rcases h.ready hhost with ⟨hrun, hempty, hfail⟩ |
    ⟨s₁, new, hrun, hinv, hpos, hlive, hnew, hlist, hchunks, hframe⟩
  · refine ⟨s, 0, ?_, .failed hempty hfail rfl, fun _ _ _ _ => rfl, h⟩
    rw [hrun]
    rfl
  · obtain ⟨a, s', hrun', hinv', hlist', hlive', hchunks', hmem⟩ := hinv.allocHelper hpos
    refine ⟨s', a + headerSize, ?_, .taken hnew ?_ ?_ ?_, fun ptr hptr i hi => ?_, hinv'⟩
    · rw [hrun]
      exact hrun'
    · rw [← hlist, hlist']
    · rw [hlive', hlive]
    · rw [hchunks', hchunks]
    · rw [hmem]
      exact hframe ptr hptr i hi

/-- Bytes in the chunks in use are none of the free list. -/
theorem PoolInv.freeList_congr (h : PoolInv c s) {mem : Nat → BitVec 8}
    (hmem : ∀ x, mem x ≠ s.mem x → ∃ ptr ∈ s.live, ptr - headerSize ≤ x ∧ x < ptr + c.chunkSize) :
    walk mem s.mp.chunkCount s.mp.freeChunkHead = s.freeList := by
  refine walk_congr fun a ha i hi => ?_
  by_contra hne
  obtain ⟨ptr, hptr, hle, hlt⟩ := hmem _ hne
  have hapart := h.apart (h.mem_free ha) (h.mem_used hptr) (h.free_ne_used ha hptr)
  have hgt := h.live_gt hptr
  have hstride := stride_eq c
  have hchunk := c.chunkSize_pos
  unfold headerSize at hle hgt hapart
  omega

/-- A change of the bytes in use keeps the invariant. -/
theorem PoolInv.congr (h : PoolInv c s) {mem : Nat → BitVec 8}
    (hmem : ∀ x, mem x ≠ s.mem x → ∃ ptr ∈ s.live, ptr - headerSize ≤ x ∧ x < ptr + c.chunkSize) :
    PoolInv c { s with mem } ∧ ({ s with mem } : PoolState).freeList = s.freeList := by
  have hlist : ({ s with mem } : PoolState).freeList = s.freeList := h.freeList_congr hmem
  refine ⟨⟨⟨?_, h.sound.apart, h.sound.inside⟩, h.chunkSize, h.stride_le, h.size_lt, h.areas⟩, hlist⟩
  rw [hlist]
  exact h.sound.perm

theorem PoolInv.used_apart (h : PoolInv c s) {ptr q : Nat} (hptr : ptr ∈ s.live) (hq : q ∈ s.live) (hne : ptr ≠ q) :
    ptr + c.chunkSize ≤ q - headerSize ∨ q + c.chunkSize ≤ ptr - headerSize := by
  have hgt := h.live_gt hptr
  have hgt' := h.live_gt hq
  have hstride := stride_eq c
  have hapart := h.apart (h.mem_used hptr) (h.mem_used hq) (by omega)
  unfold headerSize at hgt hgt' hapart ⊢
  omega

theorem PoolInv.calloc (h : PoolInv c s) {host : PoolHost} (hhost : host.Valid (s.mp.pageCount * c.pgsz) s.mp.areas) :
    ∃ s' r, mpoolCalloc c host s = some (s', r) ∧ Allocated host s s' r ∧ Untouched c s s' ∧
      (r ≠ 0 → ∀ i < c.chunkSize, s'.mem (r + i) = 0) ∧ PoolInv c s' := by
  unfold mpoolCalloc
  rcases h.ready hhost with ⟨hrun, hempty, hfail⟩ |
    ⟨s₁, new, hrun, hinv, hpos, hlive, hnew, hlist, hchunks, hframe⟩
  · refine ⟨s, 0, ?_, .failed hempty hfail rfl, fun _ _ _ _ => rfl, fun h0 => absurd rfl h0, h⟩
    rw [hrun]
    rfl
  · obtain ⟨a, s₂, hrun₂, hinv₂, hlist₂, hlive₂, hchunks₂, hmem₂⟩ := hinv.allocHelper hpos
    have hptr : a + headerSize ∈ s₂.live := hlive₂ ▸ List.mem_cons_self
    have hin : s₂.InArena c (a + headerSize) s₂.mp.chunkSize := by
      obtain ⟨p, hp, hle, hend⟩ := hinv₂.sound.inside _ (hinv₂.mem_used hptr)
      rw [Nat.add_sub_cancel] at hle hend
      refine ⟨p, hp, by omega, ?_⟩
      rw [hinv₂.chunkSize, Nat.add_assoc]
      exact hend
    have hcleared : ∀ x, clearBytes s₂.mem (a + headerSize) c.chunkSize x ≠ s₂.mem x →
        ∃ ptr ∈ s₂.live, ptr - headerSize ≤ x ∧ x < ptr + c.chunkSize := by
      intro x hx
      refine ⟨a + headerSize, hptr, ?_⟩
      by_contra hout
      exact hx (if_neg (by unfold headerSize at hout ⊢; omega))
    obtain ⟨hinv₃, hlist₃⟩ := hinv₂.congr hcleared
    refine ⟨_, a + headerSize, ?_, .taken hnew ?_ ?_ ?_, fun ptr hold i hi => ?_, fun _ i hi => ?_, hinv₃⟩
    · rw [hrun]
      change (mpoolAllocHelper c s₁).bind _ = _
      rw [hrun₂]
      change clearChunk c s₂ (a + headerSize) = _
      rw [clearChunk, if_pos hin, hinv₂.chunkSize]
    · rw [hlist₃, ← hlist, hlist₂]
    · change s₂.live = _
      rw [hlive₂, hlive]
    · change s₂.chunks = _
      rw [hchunks₂, hchunks]
    · -- the cleared bytes belong to no other chunk in use
      have hold₁ : ptr ∈ s₁.live := hlive ▸ hold
      have hne : ptr ≠ a + headerSize := fun heq => by
        have hnot := hinv.free_ne_used (hlist₂ ▸ List.mem_cons_self : a ∈ s₁.freeList) hold₁
        rw [heq, Nat.add_sub_cancel] at hnot
        exact hnot rfl
      have hapart := hinv₂.used_apart (hlive₂ ▸ List.mem_cons_of_mem _ hold₁ : ptr ∈ s₂.live) hptr hne
      change clearBytes s₂.mem (a + headerSize) c.chunkSize (ptr + i) = _
      rw [clearBytes, if_neg (by unfold headerSize at hapart ⊢; omega), hmem₂]
      exact hframe ptr hold i hi
    · exact if_pos ⟨Nat.le_add_right _ _, Nat.add_lt_add_left hi _⟩

end Alloc

/-! ## The other calls -/

section Calls

variable {c : PoolConfig} {s : PoolState}

theorem PoolInv.free (h : PoolInv c s) {target : Nat} (htarget : target ∈ s.live) :
    ∃ s', mpoolFree c target s = some s' ∧ s'.freeList = (target - headerSize) :: s.freeList ∧
      s'.live = s.live.erase target ∧ s'.chunks = s.chunks ∧ Untouched c s s' ∧ PoolInv c s' := by
  have hgt := h.live_gt htarget
  have hmem := h.mem_used htarget
  have hstride := stride_eq c
  have hchunk := c.chunkSize_pos
  have hin : s.InArena c (target - headerSize) headerSize := by
    obtain ⟨p, hp, hle, hend⟩ := h.sound.inside _ hmem
    refine ⟨p, hp, hle, ?_⟩
    unfold headerSize at hend ⊢
    omega
  -- the chunk is in use, so that not every chunk is free
  have hused : s.used.Perm ((target - headerSize) :: (s.live.erase target).map (· - headerSize)) :=
    (List.perm_cons_erase htarget).map _
  have hcount : wrap64 (s.mp.chunkCount + 1) = s.mp.chunkCount + 1 := by
    refine wrap64_of_lt ?_
    have hlength := h.sound.perm.length_eq
    rw [List.length_append, PoolInv.count_eq, hused.length_eq, List.length_cons] at hlength
    have hlt := h.count_lt
    omega
  let mem := store 8 s.mem (target - headerSize) s.mp.freeChunkHead
  have hchanged : ∀ x, mem x ≠ s.mem x → ∃ ptr ∈ s.live, ptr - headerSize ≤ x ∧ x < ptr + c.chunkSize := by
    intro x hx
    refine ⟨target, htarget, ?_⟩
    by_contra hout
    refine hx (if_neg fun hc => hout ?_)
    unfold headerSize at hc hgt ⊢
    omega
  let s' : PoolState :=
    { s with
      mp := { s.mp with freeChunkHead := target - headerSize, chunkCount := s.mp.chunkCount + 1 }
      mem
      live := s.live.erase target }
  have hrun : mpoolFree c target s = some s' := by
    unfold mpoolFree
    rw [if_neg (by omega)]
    simp only [hcount]
    exact if_pos hin
  have hlist : s'.freeList = (target - headerSize) :: s.freeList := by
    have hhead : s.mp.freeChunkHead < 256 ^ 8 ∨ s.mp.chunkCount = 0 := by
      by_cases hzero : s.mp.chunkCount = 0
      · exact .inr hzero
      · obtain ⟨k, hk⟩ := Nat.exists_eq_succ_of_ne_zero hzero
        have hfirst : s.mp.freeChunkHead ∈ s.freeList := by
          unfold PoolState.freeList
          rw [hk]
          exact List.mem_cons_self
        have hbounds := h.bounds (h.mem_free hfirst)
        exact .inl (by omega)
    have hrest := h.freeList_congr hchanged
    change (target - headerSize) :: walk mem s.mp.chunkCount (load 8 mem (target - headerSize)) = _
    rw [load_store (Nat.le_refl _)]
    rcases hhead with hlt | hzero
    · rw [Nat.mod_eq_of_lt hlt, hrest]
    · rw [hzero, freeList_of_empty hzero]
      rfl
  refine ⟨s', hrun, hlist, rfl, rfl, fun ptr hptr i hi => ?_, ?_⟩
  · -- the link lies in the header
    have hgt' := h.live_gt hptr
    change store 8 s.mem (target - headerSize) s.mp.freeChunkHead (ptr + i) = _
    refine if_neg fun hc => ?_
    unfold headerSize at hc hgt hgt'
    by_cases heq : ptr = target
    · omega
    · have hapart := h.used_apart hptr htarget heq
      unfold headerSize at hapart
      omega
  · refine ⟨⟨?_, h.sound.apart, h.sound.inside⟩, h.chunkSize, h.stride_le, h.size_lt, h.areas⟩
    rw [hlist, List.cons_append]
    refine List.Perm.trans ?_ h.sound.perm
    exact List.perm_middle.symm.trans (hused.symm.append_left _)

theorem PoolInv.write (h : PoolInv c s) {ptr off : Nat} (hptr : ptr ∈ s.live) (hoff : off < c.chunkSize)
    (b : BitVec 8) :
    PoolInv c { s with mem := Function.update s.mem (ptr + off) b } ∧
      ({ s with mem := Function.update s.mem (ptr + off) b } : PoolState).freeList = s.freeList := by
  refine h.congr fun x hx => ⟨ptr, hptr, ?_⟩
  have heq : x = ptr + off := by
    by_contra hne
    exact hx (Function.update_of_ne hne _ _)
  omega

/-- **One call.** -/
theorem PoolInv.step (h : PoolInv c s) {op : PoolOp} (hvalid : op.Valid c s) :
    ∃ s' r, op.run c s = some (s', r) ∧ OpSound c s s' r op ∧ PoolInv c s' := by
  cases op with
  | alloc host =>
    obtain ⟨s', r, hrun, halloc, hframe, hinv⟩ := h.alloc hvalid
    exact ⟨s', r, hrun, ⟨halloc, hframe⟩, hinv⟩
  | calloc host =>
    obtain ⟨s', r, hrun, halloc, hframe, hclear, hinv⟩ := h.calloc hvalid
    exact ⟨s', r, hrun, ⟨halloc, hframe, hclear⟩, hinv⟩
  | free target =>
    obtain ⟨s', hrun, hlist, hlive, hchunks, hframe, hinv⟩ := h.free hvalid
    exact ⟨s', 0, congrArg (Option.map fun s => (s, 0)) hrun, ⟨hlist, hlive, hchunks, hframe⟩, hinv⟩
  | write ptr off b =>
    obtain ⟨hinv, hlist⟩ := h.write hvalid.1 hvalid.2 b
    exact ⟨_, 0, rfl, ⟨hlist, rfl, rfl⟩, hinv⟩

/-- The free chunks are given out in the order of the list. -/
theorem PoolInv.allocMany (h : PoolInv c s) :
    ∃ s', Rv32emu.allocMany c s.freeList.length s = some (s.freeList.map (· + headerSize), s') := by
  generalize hlist : s.freeList = l
  induction l generalizing s with
  | nil => exact ⟨s, rfl⟩
  | cons a l ih =>
    have hvalid : (⟨none, fun _ => 0, false⟩ : PoolHost).Valid (s.mp.pageCount * c.pgsz) s.mp.areas := by
      intro p hp
      cases hp
    obtain ⟨s₁, r, hrun, halloc, -, hinv⟩ := h.alloc hvalid
    cases halloc with
    | failed hempty _ _ =>
      rw [hlist] at hempty
      cases hempty
    | @taken b new hnew hfirst _ _ =>
      have hnil : new = [] := hnew.resolve_right fun hempty => by
        rw [hlist] at hempty
        cases hempty
      rw [hnil, List.append_nil, hlist] at hfirst
      cases hfirst
      obtain ⟨s', hrest⟩ := ih hinv rfl
      refine ⟨s', ?_⟩
      rw [List.length_cons, List.map_cons]
      change ((mpoolAlloc c ⟨none, fun _ => 0, false⟩ s).bind _) = _
      rw [hrun]
      change ((Rv32emu.allocMany c s₁.freeList.length s₁).bind _) = _
      rw [hrest]
      rfl

end Calls

/-! ## A new pool -/

section Create

variable {c : PoolConfig}

theorem wrap64_stride (h : c.stride < 2 ^ 64) : wrap64 (c.chunkSize + headerSize) = c.stride :=
  (congrArg wrap64 (Nat.add_comm _ _)).trans (wrap64_of_lt h)

/-- A pool has room for one chunk, unless its size wraps around. -/
theorem adjusted_cases (hstride : c.stride < 2 ^ 64) (hwrap : ¬ c.Wraps) :
    (c.stride ≤ c.adjusted ∧ c.adjusted < 2 ^ 64) ∨ c.mmap = true ∧ c.adjusted = 0 := by
  have hlt := c.poolSize_lt
  unfold PoolConfig.adjusted
  rw [wrap64_stride hstride]
  split_ifs with hsmall
  · have hnot : ¬ 2 ^ 64 + (if c.mmap = true then 1 else 0) ≤ c.poolSize + headerSize := fun hle =>
      hwrap ⟨hsmall, hstride, hle⟩
    have hle := c.chunkSize_le
    by_cases hfit : c.poolSize + headerSize < 2 ^ 64
    · rw [wrap64_of_lt hfit]
      exact .inl ⟨by rw [stride_eq]; exact Nat.add_le_add_right hle 8, hfit⟩
    · right
      by_cases hmmap : c.mmap = true
      · rw [if_pos hmmap] at hnot
        refine ⟨hmmap, ?_⟩
        rw [show c.poolSize + headerSize = 2 ^ 64 by omega]
        rfl
      · rw [if_neg hmmap] at hnot
        omega
  · exact .inl ⟨Nat.le_of_not_lt hsmall, hlt⟩

theorem arenaSize_eq (hsize : c.adjusted ≤ 2 ^ 64 - c.pgsz) (hpages : c.pages ≤ sizeMax / c.pgsz) :
    c.arenaSize = c.pages * c.pgsz ∧ c.adjusted ≤ c.arenaSize := by
  have hpos := c.pgsz_pos
  have hpglt := c.pgsz_lt
  have hlt : c.pages * c.pgsz < 2 ^ 64 := by
    have hmul := Nat.mul_le_mul_right c.pgsz hpages
    have hle := Nat.div_mul_le_self sizeMax c.pgsz
    unfold sizeMax at hmul hle
    omega
  have heq : c.arenaSize = c.pages * c.pgsz := wrap64_of_lt hlt
  refine ⟨heq, ?_⟩
  have hround : c.adjusted + c.pgsz - 1 < (c.adjusted + c.pgsz - 1) / c.pgsz * c.pgsz + c.pgsz :=
    Nat.lt_div_mul_add hpos
  rw [heq, PoolConfig.pages, wrap64_of_lt (by omega)]
  omega

theorem mpoolCreate_inv (hwrap : ¬ c.Wraps) {host : PoolHost} (hhost : host.Valid c.arenaSize []) :
    mpoolCreate c host = some none ∨ ∃ s, mpoolCreate c host = some (some s) ∧ PoolInv c s := by
  have hchunk := c.chunkSize_pos
  have hpg := c.pgsz_pos
  have hpglt := c.pgsz_lt
  have hstride' := stride_eq c
  unfold mpoolCreate
  by_cases hmalloc : host.malloc = false
  · exact .inl (if_pos hmalloc)
  rw [if_neg hmalloc]
  by_cases hbig : sizeMax - headerSize < c.chunkSize
  · exact .inl (if_pos hbig)
  rw [if_neg hbig]
  by_cases hround : wrap64 (sizeMax - c.pgsz + 1) < c.adjusted
  · exact .inl (if_pos hround)
  rw [if_neg hround]
  by_cases hmany : sizeMax / c.pgsz < c.pages
  · exact .inl (if_pos hmany)
  rw [if_neg hmany]
  have hstride : c.stride < 2 ^ 64 := by
    unfold sizeMax headerSize at hbig
    omega
  rcases adjusted_cases hstride hwrap with ⟨hle, hlt⟩ | ⟨hmmap, hzero⟩
  · have hsize : c.adjusted ≤ 2 ^ 64 - c.pgsz := by
      unfold wrap64 sizeMax at hround
      omega
    obtain ⟨harena, hroom⟩ := arenaSize_eq hsize (Nat.le_of_not_lt hmany)
    have hmem : memArena c host c.arenaSize = host.arena := if_neg (by omega)
    rw [hmem]
    cases hp : host.arena with
    | none => exact .inl rfl
    | some p =>
      obtain ⟨hppos, hpend, -⟩ := hhost p hp
      obtain ⟨n, hn⟩ : ∃ n, c.adjusted / c.stride = n + 1 :=
        Nat.exists_eq_succ_of_ne_zero (Nat.div_pos hle (by omega)).ne'
      have hfit : (n + 1) * c.stride ≤ c.arenaSize := (hn ▸ Nat.div_mul_le_self _ _).trans hroom
      have hturns : wrap64 (n + 1 + sizeMax) = n := by
        have hself : n + 1 ≤ (n + 1) * c.stride := Nat.le_mul_of_pos_right _ (by omega)
        unfold wrap64 sizeMax
        omega
      obtain ⟨mem', hrun, -, hwalk⟩ := linkChunks_spec host.bytes (Nat.le_refl p) (Nat.add_le_add_left hfit p) hpend
        (by unfold headerSize; omega : headerSize < c.stride)
      have hlast : setNext p c.arenaSize (p + n * c.stride) 0 mem' = some (store 8 mem' (p + n * c.stride) 0) := by
        rw [Nat.succ_mul] at hfit
        refine setNext_inside (Nat.le_add_right _ _) ?_
        unfold headerSize
        omega
      let s : PoolState :=
        { mp :=
            { chunkCount := n + 1, pageCount := c.pages, chunkSize := c.chunkSize, freeChunkHead := p, areas := [p] }
          mem := store 8 mem' (p + n * c.stride) 0
          chunks := cutChunks c.stride (n + 1) p }
      have hlist : s.freeList = cutChunks c.stride (n + 1) p := hwalk _ fun x _ hx => store_of_lt hx
      refine .inr ⟨s, ?_, ?_⟩
      · change ((linkChunks p c.arenaSize (wrap64 c.stride) (wrap64 (c.adjusted / wrap64 c.stride + sizeMax)) p
          host.bytes).bind _) = _
        rw [wrap64_of_lt hstride, hn, hturns, hrun]
        change ((setNext p c.arenaSize (p + n * c.stride) 0 mem').bind _) = _
        rw [hlast]
        rfl
      · refine ⟨⟨?_, cutChunks_apart, fun a ha => ?_⟩, rfl, harena ▸ hle.trans hroom, ?_, fun q hq => ?_⟩
        · rw [hlist]
          exact List.Perm.of_eq (List.append_nil _)
        · have hb := cutChunks_bounds ha
          exact ⟨p, List.mem_cons_self, hb.1, hb.2.trans (Nat.add_le_add_left (harena ▸ hfit) p)⟩
        · change c.pages * c.pgsz < 2 ^ 64
          omega
        · rw [List.mem_singleton.mp hq]
          exact ⟨hppos, harena ▸ hpend⟩
  · -- `mmap` does not map an empty arena
    have hpages : c.pages = 0 := by
      rw [PoolConfig.pages, hzero, wrap64_of_lt (by omega)]
      exact Nat.div_eq_of_lt (by omega)
    have harena : c.arenaSize = 0 := by
      rw [PoolConfig.arenaSize, hpages, Nat.zero_mul]
      rfl
    have hmem : memArena c host c.arenaSize = none := if_pos ⟨hmmap, harena⟩
    rw [hmem]
    exact .inl rfl

/-- A size that has wrapped around leaves an arena of a page, or none. -/
theorem PoolConfig.Wraps.arena (h : c.Wraps) : c.adjusted = c.poolSize + 8 - 2 ^ 64 ∧
    c.pages = (c.adjusted + c.pgsz - 1) / c.pgsz ∧ c.arenaSize = c.pages * c.pgsz ∧
    c.arenaSize ≤ c.adjusted + c.pgsz - 1 := by
  obtain ⟨hsmall, hstride, hwrap⟩ := h
  have hpg := c.pgsz_pos
  have hpglt := c.pgsz_lt
  have hpool := c.poolSize_lt
  have hmmap : 2 ^ 64 ≤ c.poolSize + headerSize := (Nat.le_add_right _ _).trans hwrap
  unfold headerSize at hmmap
  have hadjusted : c.adjusted = c.poolSize + 8 - 2 ^ 64 := by
    rw [PoolConfig.adjusted, wrap64_stride hstride, if_pos hsmall]
    unfold wrap64 headerSize
    omega
  have hpages : c.pages = (c.adjusted + c.pgsz - 1) / c.pgsz := by
    rw [PoolConfig.pages, wrap64_of_lt (by omega)]
  have hmul : c.pages * c.pgsz ≤ c.adjusted + c.pgsz - 1 := hpages ▸ Nat.div_mul_le_self _ _
  have harena : c.arenaSize = c.pages * c.pgsz := wrap64_of_lt (by omega)
  exact ⟨hadjusted, hpages, harena, harena ▸ hmul⟩

/-- There is no chunk in the arena, wherever it is, and the loop leaves it. -/
theorem mpoolCreate_wraps (h : c.Wraps) (p : Nat) : mpoolCreate c ⟨some p, fun _ => 0, true⟩ = none := by
  obtain ⟨hadjusted, hpages, harena, hle⟩ := h.arena
  obtain ⟨hsmall, hstride, hwrap⟩ := h
  have hpg := c.pgsz_pos
  have hpglt := c.pgsz_lt
  have hpool := c.poolSize_lt
  have hstride' := stride_eq c
  have hmmap : 2 ^ 64 ≤ c.poolSize + headerSize := (Nat.le_add_right _ _).trans hwrap
  unfold headerSize at hmmap
  have hmem : memArena c ⟨some p, fun _ => 0, true⟩ c.arenaSize = some p := by
    refine if_neg fun hc => ?_
    rw [if_pos hc.1] at hwrap
    unfold headerSize at hwrap
    have hone : 1 ≤ c.pages := by
      rw [hpages, Nat.one_le_div_iff hpg]
      omega
    have hpos := Nat.mul_le_mul_right c.pgsz hone
    omega
  unfold mpoolCreate
  rw [if_neg Bool.true_eq_false.mp, if_neg (by unfold sizeMax headerSize; omega),
    if_neg (by unfold wrap64 sizeMax; omega), if_neg, hmem]
  · have hcount : c.adjusted / c.stride = 0 := Nat.div_eq_of_lt (by omega)
    change ((linkChunks p c.arenaSize (wrap64 c.stride) (wrap64 (c.adjusted / wrap64 c.stride + sizeMax))
      p _).bind _) = none
    have hsecond : ¬ (p ≤ wrap64 (p + c.stride) ∧ wrap64 (p + c.stride) + headerSize ≤ p + c.arenaSize) := by
      unfold wrap64 headerSize
      omega
    obtain ⟨k, hk⟩ : ∃ k, wrap64 (0 + sizeMax) = k + 2 := Nat.exists_eq_add_of_le' (by decide)
    rw [wrap64_of_lt hstride, hcount, hk, linkChunks_leaves hsecond]
    rfl
  · refine Nat.not_lt.mpr ?_
    rw [hpages]
    refine Nat.div_le_div_right ?_
    unfold sizeMax
    omega

end Create

/-! ## All pools -/

theorem PoolReach.inv {c : PoolConfig} (hwrap : ¬ c.Wraps) {s : PoolState} (h : PoolReach c s) : PoolInv c s := by
  induction h with
  | create hhost hrun =>
    rcases mpoolCreate_inv hwrap hhost with hnull | ⟨s, hs, hinv⟩
    · cases hnull.symm.trans hrun
    · cases hs.symm.trans hrun
      exact hinv
  | step _ hvalid hrun ih =>
    obtain ⟨s', r, hs', -, hinv⟩ := ih.step hvalid
    cases hs'.symm.trans hrun
    exact hinv

/-- **The pool hands out each chunk at most once**, whatever the host does, exactly if making room for the header does
not wrap its size around. -/
theorem mpool_sound_iff (c : PoolConfig) : c.Sound ↔ ¬ c.Wraps := by
  constructor
  · intro hsound hwraps
    refine hsound.1 ⟨some c.pgsz, fun _ => 0, true⟩ (fun p hp => ?_) (mpoolCreate_wraps hwraps c.pgsz)
    cases hp
    refine ⟨c.pgsz_pos, ?_, fun q hq => absurd hq List.not_mem_nil⟩
    obtain ⟨hadjusted, -, -, hle⟩ := hwraps.arena
    have hpool := c.poolSize_lt
    have hpglt := c.pgsz_lt
    omega
  · intro hwrap
    refine ⟨fun host hhost hnone => ?_, fun s hs => ?_⟩
    · rcases mpoolCreate_inv hwrap hhost with hnull | ⟨s, hs, -⟩
      · cases hnull.symm.trans hnone
      · cases hs.symm.trans hnone
    · have hinv := hs.inv hwrap
      refine ⟨hinv.sound, hinv.allocMany, fun op hvalid => ?_⟩
      obtain ⟨s', r, hrun, hop, -⟩ := hinv.step hvalid
      exact ⟨s', r, hrun, hop⟩

/-- A pool of one chunk of `2^64 - 9` bytes, two bytes short of the largest size. -/
def hugePool : PoolConfig where
  pgsz := 4096
  mmap := true
  poolSize := 2 ^ 64 - 2
  chunkSize := 2 ^ 64 - 9
  pgsz_pos := by decide
  pgsz_lt := by decide
  chunkSize_pos := by decide
  chunkSize_le := by decide
  poolSize_lt := by decide

theorem hugePool_unsound : ¬ hugePool.Sound := by
  intro h
  refine h.1 ⟨some 0x10000, fun _ => 0, true⟩ (fun p hp => ?_) (mpoolCreate_wraps ⟨by decide, by decide, by decide⟩ _)
  cases hp
  exact ⟨by decide, by decide, fun q hq => absurd hq List.not_mem_nil⟩

end Rv32emu
