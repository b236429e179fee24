import Rv32emu.Machine
import Mathlib.Data.List.Nodup
import Mathlib.Data.List.Pairwise

/-!
# The block cache of the JIT builds

`cache.c`: a hash table of entries, each of which is also on one of two lists. The alive entries are
kept in the order they were put, the ghosts are those that were replaced or evicted; a new entry takes
over the frequency of a ghost of its key. The entries are objects with an address, the intrusive lists
are lists of addresses, and `none` is a failed assertion.

* `CacheEntry`, `Cache`, `cacheHash`, `cacheCreate`;
* `cacheGet`, `cachePut`, `cacheGhostListUpdate`, `cacheFreq`, `cacheHot` : as in the source. An
  allocation may fail, and `cache_put` then puts the entry it has taken out back;
* `CacheOp`, `cacheRun` : sequences of calls.
-/

namespace Rv32emu

/-! ## Entries and lists -/

/-- The address of an entry; an address is never used again. -/
abbrev EntryPtr := Nat

structure CacheEntry (V : Type) where
  value : V
  alive : Bool
  key : Word
  freq : Word
  deriving DecidableEq, Repr

/-- `cache_t`, with the entries it owns. The bucket of a key is `hash` of it. -/
structure Cache (V : Type) where
  hash : Word → Nat
  capacity : Nat
  entry : EntryPtr → Option (CacheEntry V) := fun _ => none
  /-- From the last one put to the first. -/
  list : List EntryPtr := []
  ghostList : List EntryPtr := []
  bucket : Nat → List EntryPtr := fun _ => []
  size : Nat := 0
  ghostListSize : Nat := 0
  /-- The address the next entry gets. -/
  fresh : EntryPtr := 0

/-- `cache_hash`, on 64 bits in a `SYSTEM` build. -/
def cacheHash (system : Bool) (bits : Nat) (key : Word) : Nat :=
  if system then
    ((key.setWidth 64 * 0x61c8864680b583eb#64) >>> (64 - bits) &&& BitVec.ofNat 64 (2 ^ bits - 1)).toNat
  else ((key * 0x61c88647) >>> (32 - bits) &&& BitVec.ofNat 32 (2 ^ bits - 1)).toNat

def cacheCreate (V : Type) (system : Bool) (bits : Nat) : Option (Cache V) :=
  if 32 ≤ bits then none else some { hash := cacheHash system bits, capacity := 2 ^ bits }

namespace Cache

variable {V : Type}

/-- `list_del_init`: the entry leaves the list it is on. -/
def listDel (c : Cache V) (p : EntryPtr) : Cache V :=
  { c with list := c.list.erase p, ghostList := c.ghostList.erase p }

/-- `hlist_del_init`: the entry leaves its bucket. -/
def hlistDel (c : Cache V) (p : EntryPtr) : Cache V := { c with bucket := fun b => (c.bucket b).erase p }

def setEntry (c : Cache V) (p : EntryPtr) (e : CacheEntry V) : Cache V :=
  { c with entry := Function.update c.entry p (some e) }

def freeEntry (c : Cache V) (p : EntryPtr) : Cache V := { c with entry := Function.update c.entry p none }

/-! ## Lookups -/

/-- The first entry of a bucket with this key. -/
def firstOf (c : Cache V) (key : Word) : List EntryPtr → Option (EntryPtr × CacheEntry V)
  | [] => none
  | p :: ps =>
    match c.entry p with
    | none => none
    | some e => if e.key = key then some (p, e) else c.firstOf key ps

def cacheGet (c : Cache V) (key : Word) (update : Bool) : Option V × Cache V :=
  match c.firstOf key (c.bucket (c.hash key)) with
  | none => (none, c)
  | some (p, e) =>
    if e.alive = false then (none, c)
    else (some e.value, if update then c.setEntry p { e with freq := e.freq + 1 } else c)

def cacheFreq (c : Cache V) (key : Word) : Word :=
  ((c.bucket (c.hash key)).findSome? fun p =>
    (c.entry p).bind fun e => if e.key = key ∧ e.alive = true then some e.freq else none).getD 0

def cacheHot (c : Cache V) (key : Word) : Bool :=
  (c.bucket (c.hash key)).any fun p =>
    (c.entry p).any fun e => e.key = key ∧ e.alive = true ∧ 4096 ≤ e.freq

/-! ## Insertion -/

variable [DecidableEq V]

/-- What the loop at the start of `cache_put` finds. -/
inductive Found
  | nothing
  /-- A ghost of the key. -/
  | revived (p : EntryPtr)
  /-- An alive entry with another value. -/
  | replaced (p : EntryPtr)
  deriving DecidableEq, Repr

/-- The loop at the start of `cache_put`; putting the same value again is an assertion failure. -/
def findPut (c : Cache V) (key : Word) (value : V) : List EntryPtr → Option Found
  | [] => some .nothing
  | p :: ps => do
    let e ← c.entry p
    if e.key ≠ key then c.findPut key value ps
    else if e.alive = false then return .revived p
    else if e.value ≠ value then return .replaced p
    else none

/-- The entry that has to go: the one found, or the oldest if the cache is full. -/
def victim (c : Cache V) : Found → Option (Option EntryPtr)
  | .replaced p => some (some p)
  | _ => if c.size = c.capacity then c.list.getLast?.map some else some none

/-- The entry `p` becomes a ghost. -/
def retire (c : Cache V) (p : EntryPtr) (e : CacheEntry V) : Cache V :=
  let c := (c.setEntry p { e with alive := false }).listDel p
  { c with size := c.size - 1, ghostList := p :: c.ghostList, ghostListSize := c.ghostListSize + 1 }

/-- The ghost `p` is alive again, after a failed allocation. -/
def restore (c : Cache V) (p : EntryPtr) (e : CacheEntry V) : Cache V :=
  let c := (c.setEntry p { e with alive := true }).listDel p
  { c with list := p :: c.list, size := c.size + 1, ghostListSize := c.ghostListSize - 1 }

/-- The ghost `p` is forgotten. -/
def drop (c : Cache V) (p : EntryPtr) : Cache V :=
  let c := ((c.hlistDel p).listDel p).freeEntry p
  { c with ghostListSize := c.ghostListSize - 1 }

/-- A new entry at the head of the list and of its bucket. -/
def add (c : Cache V) (key : Word) (value : V) (freq : Word) : Cache V :=
  let p := c.fresh
  let c := c.setEntry p { value, alive := true, key, freq }
  { c with
    list := p :: c.list
    bucket := Function.update c.bucket (c.hash key) (p :: c.bucket (c.hash key))
    size := c.size + 1
    fresh := p + 1 }

def cacheGhostListUpdate (c : Cache V) : Option (Cache V) :=
  if c.ghostListSize ≤ c.capacity then some c
  else do
    let p ← c.ghostList.getLast?
    let e ← c.entry p
    if e.alive then none else return c.drop p

/-- The new entry of `cache_put`; it takes over the frequency of a ghost, which is freed. -/
def addFound (c : Cache V) (key : Word) (value : V) : Found → Option (Cache V)
  | .revived q => do
    let e ← c.entry q
    return (c.drop q).add key value (e.freq + 1)
  | _ => some (c.add key value 1)

/-- The end of `cache_put`, after the allocation. -/
def putNew (c : Cache V) (found : Found) (key : Word) (value : V) : Option (Cache V) := do
  let c ← c.addFound key value found
  let c ← c.cacheGhostListUpdate
  guard (c.size ≤ c.capacity ∧ c.ghostListSize ≤ c.capacity)
  return c

/-- `cache_put`; `alloc` says whether `calloc` succeeds. The result is the value taken out. -/
def cachePut (c : Cache V) (key : Word) (value : V) (alloc : Bool) : Option (Option V × Cache V) := do
  guard (c.size ≤ c.capacity)
  let found ← c.findPut key value (c.bucket (c.hash key))
  match ← c.victim found with
  | none =>
    if alloc = false then return (none, c)
    let c' ← c.putNew found key value
    return (none, c')
  | some p =>
    let e ← c.entry p
    guard (e.alive = true)
    if alloc = false then return (none, (c.retire p e).restore p e)
    let c' ← (c.retire p e).putNew found key value
    return (some e.value, c')

end Cache

/-! ## Sequences of calls -/

inductive CacheOp (V : Type)
  | put (key : Word) (value : V) (alloc : Bool)
  | get (key : Word) (update : Bool)
  deriving DecidableEq, Repr

def cacheRun {V : Type} [DecidableEq V] : List (CacheOp V) → Cache V → Option (Cache V)
  | [], c => some c
  | .put key value alloc :: ops, c => do
    let r ← c.cachePut key value alloc
    cacheRun ops r.2
  | .get key update :: ops, c => cacheRun ops (c.cacheGet key update).2

end Rv32emu
