import Mathlib.Data.List.Infix
import Mathlib.Order.Bounds.Defs
import Mathlib.Tactic.Ring
import Rv32emu.ByteBitmap

/-!
# Demand paging of the guest memory and its collector

`io.c` in the mmap build. The memory is mapped without access; a fault makes the 64 KiB chunk around it
accessible, and each call of the collector gives back one chunk that holds only zeros.

* `memoryNew`, `memoryFaultHandler`, `memoryGc`, over the bits of `chunk_bitmap`, the protection of every
  host page and the bytes behind them;
* `Kernel` : what `mprotect` and `madvise` may answer, call by call;
* `run` : guest accesses and collector calls in any order; `StepSpec` : what one of them can do;
* `Flat` : what a guest with a plain zeroed memory reads and writes.
-/

namespace Rv32emu
open ByteBitmap

/-- The statics of `io.c`, with the protection of each host page (is it readable and writable) and the byte
at each host address. -/
structure Paging where
  base : Nat
  size : Nat
  bitmap : Nat → BitVec 8
  gcScanIdx : Nat
  active : Nat
  peak : Nat
  prot : Nat → Bool
  bytes : Nat → BitVec 8

namespace Paging

/-- Page `p` meets the host range `[start, start + len)`, whose first page is the one of `start`. -/
def Touches (pageSize start len p : Nat) : Prop := start / pageSize ≤ p ∧ p * pageSize < start + len

instance {pageSize start len p : Nat} : Decidable (Touches pageSize start len p) :=
  inferInstanceAs (Decidable (_ ∧ _))

/-- One answer of the system to `mprotect(start, len, want)` and `madvise(start, len, MADV_DONTNEED)`.
A success changes the pages of the range. A failure may stop between two mappings, which differ in their
protection: where the range has one protection it changes nothing. The advice on anonymous memory zeroes
whole pages or is ignored. -/
structure Kernel (pageSize : Nat) where
  mprotect : Nat → Nat → Bool → (Nat → Bool) → Bool × (Nat → Bool)
  madvise : Nat → Nat → (Nat → BitVec 8) → Nat → BitVec 8
  mprotect_ok : ∀ start len want prot, (mprotect start len want prot).1 = true →
    (mprotect start len want prot).2 = fun p => if Touches pageSize start len p then want else prot p
  mprotect_failed : ∀ start len want prot, (mprotect start len want prot).1 = false →
    (∀ p q, Touches pageSize start len p → Touches pageSize start len q → prot p = prot q) →
    (mprotect start len want prot).2 = prot
  madvise_zero : ∀ start len bytes a, madvise start len bytes a = bytes a ∨ madvise start len bytes a = 0
  madvise_outside : ∀ start len bytes a, ¬Touches pageSize start len (a / pageSize) →
    madvise start len bytes a = bytes a

def Kernel.granting (pageSize : Nat) : Kernel pageSize where
  mprotect := fun start len want prot => (true, fun p => if Touches pageSize start len p then want else prot p)
  madvise := fun start len bytes a => if Touches pageSize start len (a / pageSize) then 0 else bytes a
  mprotect_ok := fun _ _ _ _ _ => rfl
  mprotect_failed := fun _ _ _ _ h => nomatch h
  madvise_zero := fun start len bytes a => by
    split
    · exact .inr rfl
    · exact .inl rfl
  madvise_outside := fun _ _ _ _ h => if_neg h

/-- A system out of mappings: both calls fail. -/
def Kernel.refusing (pageSize : Nat) : Kernel pageSize where
  mprotect := fun _ _ _ prot => (false, prot)
  madvise := fun _ _ bytes => bytes
  mprotect_ok := fun _ _ _ _ h => nomatch h
  mprotect_failed := fun _ _ _ _ _ _ => rfl
  madvise_zero := fun _ _ _ _ => .inl rfl
  madvise_outside := fun _ _ _ _ _ => rfl

/-- `fresh` is the base that `mmap` returned, `none` where it, `malloc` or `sigaction` failed. -/
def memoryNew (size : Nat) (fresh : Option Nat) : Option Paging :=
  if size = 0 then none
  else if size > 0x100000000 then none
  else fresh.map fun base =>
    { base, size, bitmap := fun _ => 0, gcScanIdx := 0, active := 0, peak := 0,
      prot := fun _ => false, bytes := fun _ => 0 }

def accessible (s : Paging) (pageSize addr : Nat) : Bool := s.prot (addr / pageSize)

def chunkLen (s : Paging) (chunkStart : Nat) : Nat :=
  if chunkStart + 65536 > s.base + s.size then s.base + s.size - chunkStart else 65536

/-- The handler counts a chunk only when it was not active yet. -/
def activate (s : Paging) (idx : Nat) : Paging :=
  if test s.bitmap idx then s
  else
    let current := s.active + 1
    { s with
      bitmap := set s.bitmap idx
      active := current
      peak := if current > s.peak then current else s.peak }

/-- `true` where the faulting access is resumed, `false` where the signal goes to the previous handler. -/
def memoryFaultHandler {pageSize : Nat} (k : Kernel pageSize) (faultAddr : Nat) (s : Paging) : Bool × Paging :=
  if faultAddr ≥ s.base ∧ faultAddr < s.base + s.size then
    let alignedOffset := (faultAddr - s.base) / 65536 * 65536
    let chunkStart := s.base + alignedOffset
    let answer := k.mprotect chunkStart (s.chunkLen chunkStart) true s.prot
    if answer.1 then (true, { s with prot := answer.2 }.activate (alignedOffset / 65536))
    else (false, { s with prot := answer.2 })
  else (false, s)

/-- `none` where the scan reads a byte it has no access to. -/
def isRegionZero (s : Paging) (pageSize : Nat) : Nat → Nat → Option Bool
  | _, 0 => some true
  | ptr, n + 1 =>
    if s.accessible pageSize ptr then
      if s.bytes ptr ≠ 0 then some false else isRegionZero s pageSize (ptr + 1) n
    else none

def maxIdx (s : Paging) : Nat := min ((s.size + 65535) / 65536) 65536

/-- The part of the collector behind `bitmap_test(idx)`. -/
def reclaim {pageSize : Nat} (k : Kernel pageSize) (idx : Nat) (s : Paging) : Option Paging :=
  let chunkPtr := s.base + idx * 65536
  let len := s.chunkLen chunkPtr
  (s.isRegionZero pageSize chunkPtr len).map fun zero =>
    if zero then
      let answer := k.mprotect chunkPtr len false s.prot
      if answer.1 then
        { s with
          prot := answer.2
          bytes := k.madvise chunkPtr len s.bytes
          bitmap := clear s.bitmap idx
          active := if s.active > 0 then s.active - 1 else s.active }
      else { s with prot := answer.2 }
    else s

/-- What an access or a collector call shows: an access completes with a byte, or its fault goes to the
previous handler; the collector looks at one chunk, or only resets its index. -/
inductive Obs where
  | read (b : Nat) (v : BitVec 8)
  | wrote (b : Nat) (v : BitVec 8)
  | forwarded (b : Nat)
  | swept (idx : Nat)
  | rewound
  deriving DecidableEq, Repr

/-- `none` where the collector faults: it runs with the signals blocked. -/
def memoryGc {pageSize : Nat} (k : Kernel pageSize) (s : Paging) : Option (Paging × Obs) :=
  let idx := s.gcScanIdx
  if idx ≥ s.maxIdx then some ({ s with gcScanIdx := 0 }, .rewound)
  else
    (if test s.bitmap idx then s.reclaim k idx else some s).map fun s' =>
      ({ s' with gcScanIdx := (idx + 1) % s.maxIdx }, .swept idx)

/-- A guest access to the byte at `b`: the flag says whether it completes, and `none` is a fault that
resuming does not cure. A wider access is one of these for each byte it touches. -/
def access {pageSize : Nat} (k : Kernel pageSize) (b : Nat) (s : Paging) : Option (Bool × Paging) :=
  if s.accessible pageSize (s.base + b) then some (true, s)
  else
    let handled := memoryFaultHandler k (s.base + b) s
    if handled.1 then
      if handled.2.accessible pageSize (s.base + b) then some (true, handled.2) else none
    else some (false, handled.2)

/-- An access or a collector call, with the system's answer to the calls it makes. -/
inductive Event (pageSize : Nat) where
  | read (b : Nat) (k : Kernel pageSize)
  | write (b : Nat) (v : BitVec 8) (k : Kernel pageSize)
  | gc (k : Kernel pageSize)

/-- The callers check a guest address before they use it. -/
def Event.InMemory {pageSize : Nat} (size : Nat) : Event pageSize → Prop
  | .read b _ => b < size
  | .write b _ _ => b < size
  | .gc _ => True

def Event.isGc {pageSize : Nat} : Event pageSize → Bool
  | .gc _ => true
  | _ => false

def step {pageSize : Nat} : Event pageSize → Paging → Option (Paging × Obs)
  | .read b k, s => (access k b s).map fun done =>
    (done.2, if done.1 then .read b (done.2.bytes (s.base + b)) else .forwarded b)
  | .write b v k, s => (access k b s).map fun done =>
    if done.1 then ({ done.2 with bytes := Function.update done.2.bytes (s.base + b) v }, .wrote b v)
    else (done.2, .forwarded b)
  | .gc k, s => memoryGc k s

def run {pageSize : Nat} : List (Event pageSize) → Paging → Option (Paging × List Obs)
  | [], s => some (s, [])
  | e :: es, s => (step e s).bind fun r => (run es r.1).map fun rest => (rest.1, r.2 :: rest.2)

/-- What a guest sees of a plain memory that holds `m`: the collector shows nowhere. -/
def Flat : (Nat → BitVec 8) → List Obs → Prop
  | _, [] => True
  | m, .read b v :: os => m b = v ∧ Flat m os
  | m, .wrote b v :: os => Flat (Function.update m b v) os
  | m, _ :: os => Flat m os

/-! ### Chunks and pages -/

section Chunk
variable {pageSize idx b : Nat} {s : Paging}

/-- A chunk ends where the next one starts or the memory ends. -/
theorem chunk_end (h : idx * 65536 < s.size) : s.base + idx * 65536 + s.chunkLen (s.base + idx * 65536) =
    min (s.base + idx * 65536 + 65536) (s.base + s.size) := by
  have hin : s.base + idx * 65536 ≤ s.base + s.size := Nat.add_le_add_left (Nat.le_of_lt h) _
  unfold chunkLen
  split
  · rename_i hgt
    rw [Nat.add_sub_cancel' hin, Nat.min_eq_right (Nat.le_of_lt hgt)]
  · rename_i hle
    rw [Nat.min_eq_left (Nat.not_lt.mp hle)]

/-- Pages divide chunks, so the pages of a chunk hold bytes of this chunk and of no other. -/
theorem touches_chunk (hpage : pageSize ∣ 65536) (hbase : pageSize ∣ s.base) (hidx : idx * 65536 < s.size)
    (hb : b < s.size) :
    Touches pageSize (s.base + idx * 65536) (s.chunkLen (s.base + idx * 65536)) ((s.base + b) / pageSize) ↔
      b / 65536 = idx := by
  have hpos : 0 < pageSize := Nat.pos_of_dvd_of_pos hpage (by decide)
  obtain ⟨c, hc⟩ := hpage
  obtain ⟨d, hd⟩ := hbase
  have hstart : s.base + idx * 65536 = pageSize * (d + idx * c) := by
    rw [hd, hc]
    ring
  have hlow : (s.base + b) / pageSize * pageSize ≤ s.base + b := Nat.div_mul_le_self _ _
  have hhigh : s.base + b < ((s.base + b) / pageSize + 1) * pageSize := by
    rw [Nat.mul_comm]
    exact Nat.lt_mul_div_succ _ hpos
  rw [Touches, chunk_end hidx, Nat.lt_min]
  constructor
  · rintro ⟨hfirst, hlast, -⟩
    have hge : pageSize * (d + idx * c) ≤ s.base + b := by
      rw [hstart, Nat.mul_div_cancel_left _ hpos] at hfirst
      calc pageSize * (d + idx * c) ≤ pageSize * ((s.base + b) / pageSize) := Nat.mul_le_mul_left _ hfirst
        _ ≤ s.base + b := by rw [Nat.mul_comm]; exact hlow
    have hend : (s.base + b) / pageSize < d + idx * c + c := by
      refine lt_of_mul_lt_mul_right ?_ (Nat.zero_le pageSize)
      calc (s.base + b) / pageSize * pageSize < s.base + idx * 65536 + 65536 := hlast
        _ = (d + idx * c + c) * pageSize := by rw [hstart, hc]; ring
    have hlt : s.base + b < s.base + idx * 65536 + 65536 :=
      calc s.base + b < ((s.base + b) / pageSize + 1) * pageSize := hhigh
        _ ≤ (d + idx * c + c) * pageSize := Nat.mul_le_mul_right _ hend
        _ = s.base + idx * 65536 + 65536 := by rw [hstart, hc]; ring
    omega
  · intro hchunk
    exact ⟨Nat.div_le_div_right (by omega), by omega, by omega⟩

theorem touches_byte (hpage : pageSize ∣ 65536) (hbase : pageSize ∣ s.base) (hidx : idx * 65536 < s.size) {p : Nat}
    (hp : Touches pageSize (s.base + idx * 65536) (s.chunkLen (s.base + idx * 65536)) p) :
    ∃ b < s.size, b / 65536 = idx ∧ (s.base + b) / pageSize = p := by
  have hpos : 0 < pageSize := Nat.pos_of_dvd_of_pos hpage (by decide)
  have hdvd : pageSize ∣ s.base + idx * 65536 := Nat.dvd_add hbase (Nat.dvd_mul_left_of_dvd hpage idx)
  rw [Touches, chunk_end hidx, Nat.lt_min] at hp
  obtain ⟨hfirst, hlast, hmem⟩ := hp
  have hge : s.base + idx * 65536 ≤ p * pageSize :=
    calc s.base + idx * 65536 = (s.base + idx * 65536) / pageSize * pageSize := (Nat.div_mul_cancel hdvd).symm
      _ ≤ p * pageSize := Nat.mul_le_mul_right _ hfirst
  obtain ⟨b, hb⟩ := Nat.exists_eq_add_of_le (Nat.le_trans (Nat.le_add_right s.base _) hge)
  refine ⟨b, by omega, by omega, ?_⟩
  rw [← hb, Nat.mul_div_cancel _ hpos]

end Chunk

/-! ### The scan of a chunk -/

theorem maxIdx_congr {s s' : Paging} (h : s'.size = s.size) : s'.maxIdx = s.maxIdx := by
  rw [maxIdx, maxIdx, h]

theorem isRegionZero_eq {s : Paging} {pageSize : Nat} {n : Nat} {ptr : Nat}
    (h : ∀ i < n, s.accessible pageSize (ptr + i) = true) :
    s.isRegionZero pageSize ptr n = some (decide (∀ i < n, s.bytes (ptr + i) = 0)) := by
  induction n generalizing ptr with
  | zero => simp [isRegionZero]
  | succ n ih =>
    have hhead : s.accessible pageSize ptr = true := h 0 (Nat.succ_pos n)
    have htail := @ih (ptr + 1) fun i hi => by
      rw [Nat.add_assoc, Nat.add_comm 1 i]
      exact h (i + 1) (Nat.succ_lt_succ hi)
    rw [isRegionZero, if_pos hhead, htail]
    split
    · rename_i hne
      rw [eq_comm, Option.some_inj, decide_eq_false_iff_not]
      exact fun hall => hne (hall 0 (Nat.succ_pos n))
    · rename_i heq
      rw [Option.some_inj, decide_eq_decide]
      constructor
      · intro hall i hi
        cases i with
        | zero => exact not_not.mp heq
        | succ i =>
          rw [Nat.add_comm i 1, ← Nat.add_assoc]
          exact hall i (Nat.lt_of_succ_lt_succ hi)
      · intro hall i hi
        rw [Nat.add_assoc, Nat.add_comm 1 i]
        exact hall (i + 1) (Nat.succ_lt_succ hi)

/-! ### The invariant -/

/-- What holds between any two steps: a byte can be accessed if and only if the bit of its chunk is set. -/
structure Inv (pageSize : Nat) (s : Paging) : Prop where
  base_dvd : pageSize ∣ s.base
  size_pos : 0 < s.size
  size_le : s.size ≤ 0x100000000
  prot_eq : ∀ b < s.size, s.accessible pageSize (s.base + b) = test s.bitmap (b / 65536)
  above : ∀ i, s.size ≤ i * 65536 → test s.bitmap i = false
  active_eq : s.active = count s.bitmap 65536
  peak_le : s.active ≤ s.peak
  scan_lt : s.gcScanIdx < s.maxIdx

theorem memoryNew_inv {pageSize size base : Nat} {s : Paging} (hbase : pageSize ∣ base)
    (hnew : memoryNew size (some base) = some s) :
    Inv pageSize s ∧ s.base = base ∧ s.size = size ∧ s.bytes = (fun _ => 0) ∧ s.peak = 0 ∧ s.active = 0 := by
  unfold memoryNew at hnew
  split at hnew
  · cases hnew
  · split at hnew
    · cases hnew
    · obtain rfl := Option.some.inj hnew
      refine ⟨⟨hbase, by simp; omega, by simp; omega, fun b _ => ?_, fun i _ => ?_, ?_, Nat.le_refl 0, ?_⟩,
        rfl, rfl, rfl, rfl, rfl⟩
      · exact test_zero.symm
      · exact test_zero
      · exact count_zero.symm
      · simp only [maxIdx]
        omega

section Inv
variable {pageSize idx b : Nat} {s : Paging} (hpage : pageSize ∣ 65536) (hinv : Inv pageSize s)
include hpage hinv

theorem Inv.uniform (hidx : idx * 65536 < s.size) (p q : Nat)
    (hp : Touches pageSize (s.base + idx * 65536) (s.chunkLen (s.base + idx * 65536)) p)
    (hq : Touches pageSize (s.base + idx * 65536) (s.chunkLen (s.base + idx * 65536)) q) : s.prot p = s.prot q := by
  obtain ⟨b, hb, hbidx, rfl⟩ := touches_byte hpage hinv.base_dvd hidx hp
  obtain ⟨c, hc, hcidx, rfl⟩ := touches_byte hpage hinv.base_dvd hidx hq
  calc s.prot ((s.base + b) / pageSize) = test s.bitmap (b / 65536) := hinv.prot_eq b hb
    _ = test s.bitmap (c / 65536) := by rw [hbidx, hcidx]
    _ = s.prot ((s.base + c) / pageSize) := (hinv.prot_eq c hc).symm

/-- After a successful `mprotect` of chunk `idx` its bytes have the new protection, and no other does. -/
theorem Inv.protect (k : Kernel pageSize) (hidx : idx * 65536 < s.size) (want : Bool) (hb : b < s.size)
    (hok : (k.mprotect (s.base + idx * 65536) (s.chunkLen (s.base + idx * 65536)) want s.prot).1 = true) :
    (k.mprotect (s.base + idx * 65536) (s.chunkLen (s.base + idx * 65536)) want s.prot).2
      ((s.base + b) / pageSize) = if b / 65536 = idx then want else test s.bitmap (b / 65536) := by
  rw [k.mprotect_ok _ _ _ _ hok]
  exact if_congr (touches_chunk hpage hinv.base_dvd hidx hb) rfl (hinv.prot_eq b hb)

theorem Inv.mprotect_failed (k : Kernel pageSize) (hidx : idx * 65536 < s.size) (want : Bool)
    (hfail : (k.mprotect (s.base + idx * 65536) (s.chunkLen (s.base + idx * 65536)) want s.prot).1 = false) :
    (k.mprotect (s.base + idx * 65536) (s.chunkLen (s.base + idx * 65536)) want s.prot).2 = s.prot :=
  k.mprotect_failed _ _ _ _ hfail (hinv.uniform hpage hidx)

omit hpage in
theorem Inv.advance {i : Nat} (hi : i < s.maxIdx) : Inv pageSize { s with gcScanIdx := i } :=
  { hinv with scan_lt := hi }

omit hpage in
/-- A chunk that has become accessible is counted, once. -/
theorem Inv.activate {prot : Nat → Bool} (hidx : idx * 65536 < s.size)
    (hprot : ∀ b < s.size,
      prot ((s.base + b) / pageSize) = if b / 65536 = idx then true else test s.bitmap (b / 65536)) :
    Inv pageSize ({ s with prot }.activate idx) ∧
      ({ s with prot }.activate idx).peak = max s.peak ({ s with prot }.activate idx).active := by
  have hlt : idx < 65536 := by
    have hsize := hinv.size_le
    omega
  have hnew : ∀ b < s.size,
      prot ((s.base + b) / pageSize) = (decide (b / 65536 = idx) || test s.bitmap (b / 65536)) := by
    intro b hb
    rw [hprot b hb]
    by_cases hb : b / 65536 = idx
    · rw [if_pos hb, decide_eq_true hb, Bool.true_or]
    · rw [if_neg hb, decide_eq_false hb, Bool.false_or]
  unfold Paging.activate
  by_cases hset : test s.bitmap idx = true
  · rw [if_pos hset]
    refine ⟨⟨hinv.base_dvd, hinv.size_pos, hinv.size_le, fun b hb => ?_, hinv.above, hinv.active_eq, hinv.peak_le,
      hinv.scan_lt⟩, (Nat.max_eq_left hinv.peak_le).symm⟩
    refine (hnew b hb).trans ?_
    by_cases hbidx : b / 65536 = idx
    · rw [decide_eq_true hbidx, Bool.true_or, hbidx, hset]
    · rw [decide_eq_false hbidx, Bool.false_or]
  · rw [if_neg hset]
    refine ⟨⟨hinv.base_dvd, hinv.size_pos, hinv.size_le, fun b hb => ?_, fun i hi => ?_, ?_, ?_, hinv.scan_lt⟩, ?_⟩
    · exact (hnew b hb).trans test_set.symm
    · have hne : i ≠ idx := fun heq => Nat.lt_irrefl _ (Nat.lt_of_lt_of_le hidx (heq ▸ hi))
      refine test_set.trans ?_
      rw [hinv.above i hi, decide_eq_false hne, Bool.false_or]
    · rw [count_set hlt (Bool.eq_false_iff.mpr hset), ← hinv.active_eq]
    · dsimp only
      split <;> omega
    · dsimp only
      split <;> omega

end Inv

@[simp] theorem activate_base (s : Paging) (idx : Nat) : (s.activate idx).base = s.base := by
  unfold activate
  split <;> rfl

@[simp] theorem activate_size (s : Paging) (idx : Nat) : (s.activate idx).size = s.size := by
  unfold activate
  split <;> rfl

@[simp] theorem activate_bytes (s : Paging) (idx : Nat) : (s.activate idx).bytes = s.bytes := by
  unfold activate
  split <;> rfl

@[simp] theorem activate_gcScanIdx (s : Paging) (idx : Nat) : (s.activate idx).gcScanIdx = s.gcScanIdx := by
  unfold activate
  split <;> rfl

@[simp] theorem activate_prot (s : Paging) (idx : Nat) : (s.activate idx).prot = s.prot := by
  unfold activate
  split <;> rfl

/-! ### What one step can do -/

/-- What an access does to the state before the byte itself is read or written. -/
structure Accessed (pageSize b : Nat) (s s' : Paging) (done : Bool) : Prop where
  inv : Inv pageSize s'
  base_eq : s'.base = s.base
  size_eq : s'.size = s.size
  bytes_eq : s'.bytes = s.bytes
  scan_eq : s'.gcScanIdx = s.gcScanIdx
  peak_eq : s'.peak = max s.peak s'.active
  reached : done = true → s'.accessible pageSize (s.base + b) = true

section Step
variable {pageSize b : Nat} {s : Paging} (hpage : pageSize ∣ 65536) (hinv : Inv pageSize s)

theorem Inv.unchanged (hinv : Inv pageSize s) : Accessed pageSize b s s false :=
  ⟨hinv, rfl, rfl, rfl, rfl, (Nat.max_eq_left hinv.peak_le).symm, nofun⟩

include hpage hinv

theorem memoryFaultHandler_spec (k : Kernel pageSize) (hb : b < s.size) :
    Accessed pageSize b s (memoryFaultHandler k (s.base + b) s).2 (memoryFaultHandler k (s.base + b) s).1 := by
  unfold memoryFaultHandler
  rw [if_pos ⟨Nat.le_add_right _ _, Nat.add_lt_add_left hb _⟩, Nat.add_sub_cancel_left]
  have hidx : b / 65536 * 65536 < s.size := Nat.lt_of_le_of_lt (Nat.div_mul_le_self _ _) hb
  dsimp only
  rw [Nat.mul_div_cancel _ (by decide : 0 < 65536)]
  by_cases hok :
      (k.mprotect (s.base + b / 65536 * 65536) (s.chunkLen (s.base + b / 65536 * 65536)) true s.prot).1 = true
  · rw [if_pos hok]
    obtain ⟨hact, hpeak⟩ := hinv.activate hidx fun c hc => hinv.protect hpage k hidx true hc hok
    refine ⟨hact, activate_base _ _, activate_size _ _, activate_bytes _ _, activate_gcScanIdx _ _, hpeak, fun _ => ?_⟩
    rw [accessible, activate_prot]
    exact (hinv.protect hpage k hidx true hb hok).trans (if_pos rfl)
  · rw [if_neg hok, hinv.mprotect_failed hpage k hidx true (Bool.eq_false_iff.mpr hok)]
    exact hinv.unchanged

theorem access_spec (k : Kernel pageSize) (hb : b < s.size) :
    ∃ done s', access k b s = some (done, s') ∧ Accessed pageSize b s s' done := by
  unfold access
  by_cases hacc : s.accessible pageSize (s.base + b) = true
  · rw [if_pos hacc]
    exact ⟨true, s, rfl, { hinv.unchanged (b := b) with reached := fun _ => hacc }⟩
  · rw [if_neg hacc]
    have hspec := memoryFaultHandler_spec hpage hinv k hb
    by_cases hres : (memoryFaultHandler k (s.base + b) s).1 = true
    · dsimp only
      rw [if_pos hres, if_pos (hspec.reached hres)]
      exact ⟨true, _, rfl, hres ▸ hspec⟩
    · dsimp only
      rw [if_neg hres]
      exact ⟨false, _, rfl, Bool.eq_false_iff.mpr hres ▸ hspec⟩

/-- The collector gives a chunk of zeros back without changing a byte of the guest memory. -/
theorem reclaim_spec (k : Kernel pageSize) {idx : Nat} (hidx : idx * 65536 < s.size) (hset : test s.bitmap idx = true) :
    ∃ s', s.reclaim k idx = some s' ∧ Inv pageSize s' ∧ s'.base = s.base ∧ s'.size = s.size ∧ s'.peak = s.peak ∧
      s'.gcScanIdx = s.gcScanIdx ∧ ∀ b < s.size, s'.bytes (s.base + b) = s.bytes (s.base + b) := by
  have hlt : idx < 65536 := by
    have hsize := hinv.size_le
    omega
  have hlen := @chunk_end idx s hidx
  have hreadable : ∀ i < s.chunkLen (s.base + idx * 65536),
      s.accessible pageSize (s.base + idx * 65536 + i) = true := by
    intro i hi
    have hend := Nat.add_lt_add_left hi (s.base + idx * 65536)
    rw [hlen, Nat.lt_min] at hend
    obtain ⟨hlow, hhigh⟩ := hend
    have hchunk : (idx * 65536 + i) / 65536 = idx := by omega
    rw [Nat.add_assoc] at hhigh ⊢
    rw [hinv.prot_eq _ (Nat.lt_of_add_lt_add_left hhigh), hchunk, hset]
  unfold reclaim
  dsimp only
  rw [isRegionZero_eq hreadable]
  by_cases hzero : ∀ i < s.chunkLen (s.base + idx * 65536), s.bytes (s.base + idx * 65536 + i) = 0
  swap
  · refine ⟨s, by rw [decide_eq_false hzero]; rfl, hinv, rfl, rfl, rfl, rfl, fun _ _ => rfl⟩
  rw [decide_eq_true hzero]
  by_cases hok : (k.mprotect (s.base + idx * 65536) (s.chunkLen (s.base + idx * 65536)) false s.prot).1 = true
  swap
  · refine ⟨s, ?_, hinv, rfl, rfl, rfl, rfl, fun _ _ => rfl⟩
    simp only [Option.map_some, if_true]
    rw [if_neg hok, hinv.mprotect_failed hpage k hidx false (Bool.eq_false_iff.mpr hok)]
  simp only [Option.map_some, if_true]
  rw [if_pos hok]
  have hcount := count_clear hlt hset
  refine ⟨_, rfl, ⟨hinv.base_dvd, hinv.size_pos, hinv.size_le, fun b hb => ?_, fun i hi => ?_, ?_, ?_, hinv.scan_lt⟩,
    rfl, rfl, rfl, rfl, fun b hb => ?_⟩
  · refine (hinv.protect hpage k hidx false hb hok).trans (Eq.trans ?_ test_clear.symm)
    by_cases hbidx : b / 65536 = idx
    · rw [if_pos hbidx, decide_eq_true hbidx, Bool.not_true, Bool.false_and]
    · rw [if_neg hbidx, decide_eq_false hbidx, Bool.not_false, Bool.true_and]
  · refine test_clear.trans ?_
    rw [hinv.above i hi, Bool.and_false]
  · have hactive := hinv.active_eq
    dsimp only
    split <;> omega
  · have hpeak := hinv.peak_le
    dsimp only
    split <;> omega
  · -- a byte of the chunk is zero before, and zero or unchanged after; any other is out of the advice's reach
    dsimp only
    by_cases hbidx : b / 65536 = idx
    · obtain ⟨i, hi⟩ := Nat.exists_eq_add_of_le (hbidx ▸ Nat.div_mul_le_self b 65536)
      have hin : s.base + idx * 65536 + i < min (s.base + idx * 65536 + 65536) (s.base + s.size) :=
        Nat.lt_min.mpr ⟨by omega, by omega⟩
      have hbyte := hzero i (Nat.lt_of_add_lt_add_left (hlen ▸ hin))
      rw [Nat.add_assoc, ← hi] at hbyte
      rcases k.madvise_zero (s.base + idx * 65536) (s.chunkLen (s.base + idx * 65536)) s.bytes (s.base + b) with h | h
      · exact h
      · exact h.trans hbyte.symm
    · exact k.madvise_outside _ _ _ _ fun h => hbidx ((touches_chunk hpage hinv.base_dvd hidx hb).mp h)

theorem memoryGc_spec (k : Kernel pageSize) :
    ∃ s', memoryGc k s = some (s', .swept s.gcScanIdx) ∧ Inv pageSize s' ∧ s'.base = s.base ∧ s'.size = s.size ∧
      s'.peak = s.peak ∧ s'.gcScanIdx = (s.gcScanIdx + 1) % s.maxIdx ∧
      ∀ b < s.size, s'.bytes (s.base + b) = s.bytes (s.base + b) := by
  have hscan := hinv.scan_lt
  have hnext : (s.gcScanIdx + 1) % s.maxIdx < s.maxIdx := Nat.mod_lt _ (by omega)
  have hidx : s.gcScanIdx * 65536 < s.size := by
    obtain ⟨hlow, -⟩ := Nat.lt_min.mp hscan
    have hmul := (Nat.le_div_iff_mul_le (by decide : 0 < 65536)).mp hlow
    rw [Nat.succ_mul] at hmul
    exact Nat.lt_of_add_lt_add_right (Nat.lt_of_le_of_lt hmul (Nat.lt_succ_self _))
  unfold memoryGc
  rw [if_neg (Nat.not_le.mpr hscan)]
  by_cases hset : test s.bitmap s.gcScanIdx = true
  · obtain ⟨s', hs', hinv', hbase, hsize, hpeak, -, hbytes⟩ := reclaim_spec hpage hinv k hidx hset
    rw [if_pos hset, hs']
    exact ⟨_, rfl, hinv'.advance (hnext.trans_eq (maxIdx_congr hsize).symm), hbase, hsize, hpeak, rfl, hbytes⟩
  · rw [if_neg hset]
    exact ⟨_, rfl, hinv.advance hnext, rfl, rfl, rfl, rfl, fun _ _ => rfl⟩

end Step

def view (s : Paging) (b : Nat) : BitVec 8 := s.bytes (s.base + b)

theorem view_write (s : Paging) {addr b : Nat} (haddr : addr = s.base + b) (v : BitVec 8) (c : Nat) :
    { s with bytes := Function.update s.bytes addr v }.view c = Function.update s.view b v c := by
  change Function.update s.bytes addr v (s.base + c) = _
  rw [Function.update_apply, Function.update_apply, haddr]
  exact if_congr Nat.add_left_cancel_iff rfl rfl

/-- What a step from `s` shows and leaves behind, seen by the guest. -/
def Shows (s s' : Paging) : Obs → Prop
  | .read b v => b < s.size ∧ s.view b = v ∧ ∀ c < s.size, s'.view c = s.view c
  | .wrote b v => ∀ c < s.size, s'.view c = Function.update s.view b v c
  | _ => ∀ c < s.size, s'.view c = s.view c

structure StepSpec {pageSize : Nat} (e : Event pageSize) (s s' : Paging) (o : Obs) : Prop where
  inv : Inv pageSize s'
  base_eq : s'.base = s.base
  size_eq : s'.size = s.size
  peak_eq : s'.peak = max s.peak s'.active
  shows : Shows s s' o
  scan_eq : if e.isGc then o = .swept s.gcScanIdx ∧ s'.gcScanIdx = (s.gcScanIdx + 1) % s.maxIdx
    else s'.gcScanIdx = s.gcScanIdx

section Run
variable {pageSize : Nat} (hpage : pageSize ∣ 65536)
include hpage

theorem step_spec {s : Paging} (hinv : Inv pageSize s) (e : Event pageSize) (he : e.InMemory s.size) :
    ∃ s' o, step e s = some (s', o) ∧ StepSpec e s s' o := by
  cases e with
  | read b k =>
    obtain ⟨done, s', hstep, hacc⟩ := access_spec hpage hinv k he
    have hview : ∀ c, s'.view c = s.view c := fun c => by rw [view, view, hacc.bytes_eq, hacc.base_eq]
    rw [step, hstep]
    refine ⟨s', _, rfl, hacc.inv, hacc.base_eq, hacc.size_eq, hacc.peak_eq, ?_, hacc.scan_eq⟩
    cases done with
    | false => exact fun c _ => hview c
    | true => exact ⟨he, by rw [view, hacc.bytes_eq], fun c _ => hview c⟩
  | write b v k =>
    obtain ⟨done, s', hstep, hacc⟩ := access_spec hpage hinv k he
    have hview : ∀ c, s'.view c = s.view c := fun c => by rw [view, view, hacc.bytes_eq, hacc.base_eq]
    rw [step, hstep]
    cases done with
    | false =>
      exact ⟨s', _, rfl, hacc.inv, hacc.base_eq, hacc.size_eq, hacc.peak_eq, fun c _ => hview c, hacc.scan_eq⟩
    | true =>
      refine ⟨_, _, rfl, { hacc.inv with }, hacc.base_eq, hacc.size_eq, hacc.peak_eq, fun c _ => ?_, hacc.scan_eq⟩
      have haddr : s.base + b = s'.base + b := by rw [hacc.base_eq]
      exact (view_write s' haddr v c).trans (by rw [funext hview])
  | gc k =>
    obtain ⟨s', hstep, hinv', hbase, hsize, hpeak, hscan, hbytes⟩ := memoryGc_spec hpage hinv k
    refine ⟨s', _, hstep, hinv', hbase, hsize, ?_, fun c hc => ?_, rfl, hscan⟩
    · rw [← hpeak, Nat.max_eq_left hinv'.peak_le]
    · rw [view, view, hbase]
      exact hbytes c hc

/-- What a run from `s` shows: a plain memory that starts with the same bytes, and chunk after chunk
visited by the collector. -/
structure RunSpec (es : List (Event pageSize)) (s s' : Paging) (obs : List Obs) : Prop where
  inv : Inv pageSize s'
  base_eq : s'.base = s.base
  size_eq : s'.size = s.size
  flat : ∀ m : Nat → BitVec 8, (∀ c < s.size, m c = s.view c) → Flat m obs
  visits : ∀ j < es.countP Event.isGc, Obs.swept ((s.gcScanIdx + j) % s.maxIdx) ∈ obs

omit hpage in
theorem Shows.flat {s s' : Paging} {o : Obs} {os : List Obs} (h : Shows s s' o) (hsize : s'.size = s.size)
    (hos : ∀ m : Nat → BitVec 8, (∀ c < s'.size, m c = s'.view c) → Flat m os) {m : Nat → BitVec 8}
    (hm : ∀ c < s.size, m c = s.view c) : Flat m (o :: os) := by
  cases o with
  | read b v =>
    obtain ⟨hb, hv, hview⟩ := h
    exact ⟨(hm b hb).trans hv, hos m fun c hc => (hm c (hsize ▸ hc)).trans (hview c (hsize ▸ hc)).symm⟩
  | wrote b v =>
    refine hos _ fun c hc => ?_
    rw [h c (hsize ▸ hc), Function.update_apply, Function.update_apply, hm c (hsize ▸ hc)]
  | forwarded b => exact hos m fun c hc => (hm c (hsize ▸ hc)).trans (h c (hsize ▸ hc)).symm
  | swept idx => exact hos m fun c hc => (hm c (hsize ▸ hc)).trans (h c (hsize ▸ hc)).symm
  | rewound => exact hos m fun c hc => (hm c (hsize ▸ hc)).trans (h c (hsize ▸ hc)).symm

omit hpage in
theorem StepSpec.visits {e : Event pageSize} {es : List (Event pageSize)} {s s' : Paging} {o : Obs} {os : List Obs}
    (h : StepSpec e s s' o) (hscan : s.gcScanIdx < s.maxIdx)
    (hos : ∀ j < es.countP Event.isGc, Obs.swept ((s'.gcScanIdx + j) % s'.maxIdx) ∈ os) {j : Nat}
    (hj : j < (e :: es).countP Event.isGc) : Obs.swept ((s.gcScanIdx + j) % s.maxIdx) ∈ o :: os := by
  have hrest := h.scan_eq
  rw [maxIdx_congr h.size_eq] at hos
  rw [List.countP_cons] at hj
  by_cases hgc : e.isGc = true
  · rw [if_pos hgc] at hj hrest
    obtain ⟨rfl, hnext⟩ := hrest
    cases j with
    | zero =>
      rw [Nat.add_zero, Nat.mod_eq_of_lt hscan]
      exact List.mem_cons_self
    | succ j =>
      have hmem := hos j (Nat.lt_of_succ_lt_succ hj)
      rw [hnext, Nat.mod_add_mod, Nat.add_assoc, Nat.add_comm 1 j] at hmem
      exact List.mem_cons_of_mem _ hmem
  · rw [if_neg hgc] at hj hrest
    rw [← hrest]
    exact List.mem_cons_of_mem _ (hos j hj)

theorem run_spec (es : List (Event pageSize)) {s : Paging} (hinv : Inv pageSize s)
    (hes : ∀ e ∈ es, e.InMemory s.size) : ∃ s' obs, run es s = some (s', obs) ∧ RunSpec es s s' obs := by
  induction es generalizing s with
  | nil => exact ⟨s, [], rfl, hinv, rfl, rfl, fun _ _ => trivial, fun j hj => absurd hj (Nat.not_lt_zero j)⟩
  | cons e es ih =>
    obtain ⟨s₁, o, hstep, hspec⟩ := step_spec hpage hinv e (hes e List.mem_cons_self)
    obtain ⟨s', os, hrun, hrest⟩ := ih hspec.inv fun e' he' => hspec.size_eq ▸ hes e' (List.mem_cons_of_mem _ he')
    refine ⟨s', o :: os, by rw [run, hstep, Option.bind_some, hrun]; rfl, hrest.inv, hrest.base_eq.trans hspec.base_eq,
      hrest.size_eq.trans hspec.size_eq, fun m hm => ?_, fun j hj => ?_⟩
    · exact hspec.shows.flat hspec.size_eq hrest.flat hm
    · exact hspec.visits hinv.scan_lt hrest.visits hj

/-- The peak after a run is the one before it or the highest count on the way, and no count exceeds it. -/
theorem run_peak (es : List (Event pageSize)) {s s' : Paging} {obs : List Obs} (hinv : Inv pageSize s)
    (hes : ∀ e ∈ es, e.InMemory s.size) (hrun : run es s = some (s', obs)) :
    s.peak ≤ s'.peak ∧
      (∀ pre t os, pre <+: es → run pre s = some (t, os) → t.active ≤ s'.peak) ∧
      (s'.peak = s.peak ∨ ∃ pre t os, pre <+: es ∧ run pre s = some (t, os) ∧ t.active = s'.peak) := by
  induction es generalizing s obs with
  | nil =>
    obtain ⟨rfl, -⟩ := Prod.mk.inj (Option.some.inj hrun)
    refine ⟨Nat.le_refl _, fun pre t os hpre ht => ?_, .inl rfl⟩
    obtain rfl := List.prefix_nil.mp hpre
    obtain ⟨rfl, -⟩ := Prod.mk.inj (Option.some.inj ht)
    exact hinv.peak_le
  | cons e es ih =>
    obtain ⟨s₁, o, hstep, hspec⟩ := step_spec hpage hinv e (hes e List.mem_cons_self)
    have hes₁ : ∀ e' ∈ es, e'.InMemory s₁.size := fun e' he' => hspec.size_eq ▸ hes e' (List.mem_cons_of_mem _ he')
    obtain ⟨t₁, os₁, hrun₁, -⟩ := run_spec hpage es hspec.inv hes₁
    have hcons : run (e :: es) s = some (t₁, o :: os₁) := by
      rw [run, hstep, Option.bind_some, hrun₁]
      rfl
    obtain ⟨rfl, -⟩ := Prod.mk.inj (Option.some.inj (hcons.symm.trans hrun))
    obtain ⟨hmono, hbound, hhit⟩ := ih hspec.inv hes₁ hrun₁
    have hpeak := hspec.peak_eq
    refine ⟨by omega, fun pre t os hpre ht => ?_, ?_⟩
    · cases pre with
      | nil =>
        obtain ⟨rfl, -⟩ := Prod.mk.inj (Option.some.inj ht)
        have hle := hinv.peak_le
        omega
      | cons e' pre =>
        obtain ⟨rfl, hpre'⟩ := List.cons_prefix_cons.mp hpre
        rw [run, hstep, Option.bind_some] at ht
        obtain ⟨r, hr, hrt⟩ := Option.map_eq_some_iff.mp ht
        obtain ⟨rfl, -⟩ := Prod.mk.inj hrt
        exact hbound pre r.1 r.2 hpre' hr
    · have hprefix : ∀ pre t os, pre <+: es → run pre s₁ = some (t, os) →
          (e :: pre) <+: (e :: es) ∧ run (e :: pre) s = some (t, o :: os) := by
        intro pre t os hpre ht
        refine ⟨List.cons_prefix_cons.mpr ⟨rfl, hpre⟩, ?_⟩
        rw [run, hstep, Option.bind_some, ht]
        rfl
      rcases hhit with heq | ⟨pre, t, os, hpre, ht, hact⟩
      · rcases Nat.le_total s₁.active s.peak with hle | hge
        · exact .inl (by omega)
        · obtain ⟨hp, hr⟩ := hprefix [] s₁ [] List.nil_prefix rfl
          exact .inr ⟨_, _, _, hp, hr, by omega⟩
      · obtain ⟨hp, hr⟩ := hprefix pre t os hpre ht
        exact .inr ⟨_, _, _, hp, hr, hact⟩

end Run

/-- Every chunk is among the next `maxIdx` the collector looks at. -/
theorem exists_scan {g M idx : Nat} (hg : g < M) (hidx : idx < M) : ∃ j < M, (g + j) % M = idx := by
  refine ⟨(idx + (M - g)) % M, Nat.mod_lt _ (by omega), ?_⟩
  rw [Nat.add_mod_mod, show g + (idx + (M - g)) = idx + M by omega, Nat.add_mod_right, Nat.mod_eq_of_lt hidx]

end Paging
end Rv32emu
