import Rv32emu.VirtioRange

/-!
# A conforming driver

* `Rings` : how a queue lies in guest RAM;
* `Conforming` : the requests that wait are in the available ring, in order, and each of them is well formed;
* `serve` : what the requests of a batch ask for, one after the other;
* `ConformingRun` : submissions, notifications and writes to other registers;
* `conformingRun_served` : every notification serves the requests that wait once and in order, and completes
  the `k`-th request of the run in slot `k % queue_num`.
-/

namespace Rv32emu

/-! ## The rings -/

theorem add_one_ofNat (i : BitVec 16) (k : Nat) : i + 1 + BitVec.ofNat 16 k = i + BitVec.ofNat 16 (k + 1) := by
  rw [BitVec.ofNat_add, BitVec.add_assoc]
  exact congrArg (i + ·) (BitVec.add_comm _ _)

/-- `i` is one of the `len` bytes from `a` on. -/
def seg (a len i : Nat) : Prop := a ≤ i ∧ i < a + len

namespace VirtioBlkQueue

variable (q : VirtioBlkQueue)

def descSeg : Nat → Prop := seg (4 * q.queueDesc.toNat) (16 * q.queueNum.toNat)

/-- The bytes of the available ring, `used_event` included. -/
def availSeg : Nat → Prop := seg (4 * q.queueAvail.toNat) (2 * q.queueNum.toNat + 6)

/-- The bytes of the used ring, `avail_event` included. -/
def usedSeg : Nat → Prop := seg (4 * q.queueUsed.toNat) (8 * q.queueNum.toNat + 6)

/-- Where the available ring has the entry of a slot. -/
def entryOff (slot : Nat) : Nat := 4 * q.queueAvail.toNat + 4 + 2 * slot

/-- Where the used ring has the element of a slot. -/
def elemOff (slot : Nat) : Nat := 4 * q.queueUsed.toNat + 4 + 8 * slot

def slotOf (i : BitVec 16) : Nat := i.toNat % q.queueNum.toNat

end VirtioBlkQueue

/-- The queue has `2 ^ k` entries, and its rings lie in guest RAM, the used ring apart from what the device
reads. -/
structure Rings (env : VblkEnv) (q : VirtioBlkQueue) : Prop where
  mem : env.memSize ≤ 2 ^ 32
  pow : ∃ k, q.queueNum.toNat = 2 ^ k
  num : q.queueNum.toNat ≤ 1024
  desc : 4 * q.queueDesc.toNat + 16 * q.queueNum.toNat ≤ env.memSize
  avail : 4 * q.queueAvail.toNat + (2 * q.queueNum.toNat + 6) ≤ env.memSize
  used : 4 * q.queueUsed.toNat + (8 * q.queueNum.toNat + 6) ≤ env.memSize
  apart : ∀ a, q.usedSeg a → ¬ q.descSeg a ∧ ¬ q.availSeg a

section Rings

variable {env : VblkEnv} {q : VirtioBlkQueue} (hr : Rings env q)

include hr

theorem Rings.num_pos : 0 < q.queueNum.toNat := by
  obtain ⟨k, hk⟩ := hr.pow
  rw [hk]
  exact Nat.two_pow_pos k

theorem Rings.num_dvd : q.queueNum.toNat ∣ 2 ^ 16 := by
  obtain ⟨k, hk⟩ := hr.pow
  have hle : 2 ^ k ≤ 2 ^ 10 := hk ▸ hr.num
  have hk10 : k ≤ 10 := (Nat.pow_le_pow_iff_right (by decide)).mp hle
  rw [hk]
  exact Nat.pow_dvd_pow 2 (by omega)

theorem Rings.slotOf_lt (i : BitVec 16) : q.slotOf i < q.queueNum.toNat := Nat.mod_lt _ hr.num_pos

/-- The slots do not notice that the indices wrap around. -/
theorem Rings.slotOf_ofNat (k : Nat) : q.slotOf (BitVec.ofNat 16 k) = k % q.queueNum.toNat := by
  unfold VirtioBlkQueue.slotOf
  rw [BitVec.toNat_ofNat, Nat.mod_mod_of_dvd _ hr.num_dvd]

theorem Rings.slotOf_add (i : BitVec 16) (k : Nat) :
    q.slotOf (i + BitVec.ofNat 16 k) = (i.toNat + k) % q.queueNum.toNat := by
  have hi : i + BitVec.ofNat 16 k = BitVec.ofNat 16 (i.toNat + k) := by
    rw [BitVec.ofNat_add, BitVec.ofNat_toNat, BitVec.setWidth_eq]
  rw [hi, hr.slotOf_ofNat]

/-- Fewer than `queue_num` indices in a row have different slots. -/
theorem Rings.slotOf_add_ne (i : BitVec 16) {k : Nat} (h0 : 0 < k) (hk : k < q.queueNum.toNat) :
    q.slotOf (i + BitVec.ofNat 16 k) ≠ q.slotOf i := by
  rw [hr.slotOf_add]
  intro heq
  have hmod : (i.toNat + k) % q.queueNum.toNat = (i.toNat + 0) % q.queueNum.toNat := heq
  have hk0 : k % q.queueNum.toNat = 0 % q.queueNum.toNat := Nat.ModEq.add_left_cancel' i.toNat hmod
  rw [Nat.mod_eq_of_lt hk, Nat.zero_mod] at hk0
  omega

theorem Rings.toNat_descOff {i : BitVec 16} (hi : i.toNat < q.queueNum.toNat) :
    q.descOff i = 4 * q.queueDesc.toNat + 16 * i.toNat := by
  have hdesc := hr.desc
  have hmem := hr.mem
  unfold VirtioBlkQueue.descOff
  rw [BitVec.toNat_add, BitVec.toNat_mul, BitVec.toNat_setWidth]
  have h4 : (4 : Word).toNat = 4 := rfl
  rw [h4]
  omega

theorem Rings.toNat_availWord {slot : Nat} (hs : slot < q.queueNum.toNat) :
    (q.availWord slot).toNat = q.queueAvail.toNat + 1 + slot / 2 := by
  have havail := hr.avail
  have hmem := hr.mem
  unfold VirtioBlkQueue.availWord
  rw [BitVec.toNat_add, BitVec.toNat_add, BitVec.toNat_ofNat]
  have h1 : (1 : Word).toNat = 1 := rfl
  rw [h1]
  omega

theorem Rings.toNat_usedWord {slot : Nat} (hs : slot < q.queueNum.toNat) :
    (q.usedWord slot).toNat = q.queueUsed.toNat + 1 + 2 * slot := by
  have hused := hr.used
  have hmem := hr.mem
  unfold VirtioBlkQueue.usedWord
  rw [BitVec.toNat_add, BitVec.toNat_add, BitVec.toNat_mul, BitVec.toNat_ofNat]
  have h1 : (1 : Word).toNat = 1 := rfl
  have h2 : (2 : Word).toNat = 2 := rfl
  rw [h1, h2]
  omega

theorem Rings.usedElem_off (u : BitVec 16) : 4 * (q.usedElem u).toNat = q.elemOff (q.slotOf u) := by
  have h := hr.toNat_usedWord (hr.slotOf_lt u)
  change 4 * (q.usedWord (q.slotOf u)).toNat = _
  unfold VirtioBlkQueue.elemOff
  omega

theorem Rings.usedElem_succ_off (u : BitVec 16) : 4 * (q.usedElem u + 1).toNat = q.elemOff (q.slotOf u) + 4 := by
  have h := hr.toNat_usedWord (hr.slotOf_lt u)
  have hused := hr.used
  have hmem := hr.mem
  have hslot := hr.slotOf_lt u
  change 4 * (q.usedWord (q.slotOf u) + 1).toNat = _
  unfold VirtioBlkQueue.elemOff
  rw [BitVec.toNat_add]
  have h1 : (1 : Word).toNat = 1 := rfl
  rw [h1]
  omega

end Rings

/-! ## Memory -/

theorem bufferIdx_word (m : Bytes) (a slot : Nat) : bufferIdx (m.word a) slot = m.half (a + 2 * (slot % 2)) := by
  rcases Nat.mod_two_eq_zero_or_one slot with h0 | h1
  · unfold bufferIdx Bytes.word Bytes.half
    rw [h0]
    apply BitVec.eq_of_getLsbD_eq
    intro i hi
    have hi' : i < 16 := hi
    simp only [BitVec.getLsbD_setWidth, BitVec.getLsbD_ushiftRight, BitVec.getLsbD_append]
    interval_cases i <;> rfl
  · have hring : bufferIdx (m.word a) slot = ringIdx (m.word a) := by
      unfold bufferIdx ringIdx
      rw [h1]
    rw [hring, ringIdx_word, h1]

section Congr

variable {m m' : Bytes} {a : Nat}

theorem Bytes.half_congr (h : ∀ i, seg a 2 i → m' i = m i) : m'.half a = m.half a := by
  unfold Bytes.half
  rw [h (a + 1) ⟨by omega, by omega⟩, h a ⟨by omega, by omega⟩]

theorem Bytes.dword_congr (h : ∀ i, seg a 8 i → m' i = m i) : m'.dword a = m.dword a := by
  unfold Bytes.dword
  have hlow : m'.word a = m.word a := Bytes.word_congr fun i h0 h1 => h i ⟨by omega, by omega⟩
  have hhigh : m'.word (a + 4) = m.word (a + 4) := Bytes.word_congr fun i h0 h1 => h i ⟨by omega, by omega⟩
  rw [hlow, hhigh]

theorem Bytes.desc_congr (h : ∀ i, seg a 16 i → m' i = m i) : m'.desc a = m.desc a := by
  unfold Bytes.desc
  have haddr : m'.dword a = m.dword a := Bytes.dword_congr fun i hi => h i ⟨hi.1, by have := hi.2; omega⟩
  have hlen : m'.word (a + 8) = m.word (a + 8) := Bytes.word_congr fun i h0 h1 => h i ⟨by omega, by omega⟩
  have hflags : m'.half (a + 12) = m.half (a + 12) :=
    Bytes.half_congr fun i hi => h i ⟨by have := hi.1; omega, by have := hi.2; omega⟩
  have hnext : m'.half (a + 14) = m.half (a + 14) :=
    Bytes.half_congr fun i hi => h i ⟨by have := hi.1; omega, by have := hi.2; omega⟩
  rw [haddr, hlen, hflags, hnext]

end Congr

/-! ## Requests -/

def VirtioBlkQueue.headerSeg (q : VirtioBlkQueue) (m : Bytes) (h : BitVec 16) : Nat → Prop :=
  seg (q.chain m h).1.addr.toNat 16

def VirtioBlkQueue.dataSeg (q : VirtioBlkQueue) (m : Bytes) (h : BitVec 16) : Nat → Prop :=
  seg (q.chain m h).2.1.addr.toNat (q.chain m h).2.1.len.toNat

/-- A well-formed read or write request that stays inside guest RAM and the disk. -/
structure GoodRequest (env : VblkEnv) (q : VirtioBlkQueue) (v : VirtioBlk) (h : BitVec 16) : Prop where
  head : h.toNat < q.queueNum.toNat
  next : (q.chain v.ram h).1.next.toNat < q.queueNum.toNat
  last : (q.chain v.ram h).2.1.next.toNat < q.queueNum.toNat
  valid : validChain (q.chain v.ram h).1 (q.chain v.ram h).2.1 (q.chain v.ram h).2.2 = true
  within : ChainInside env (q.chain v.ram h).1 (q.chain v.ram h).2.1 (q.chain v.ram h).2.2 v
  accepted : transfers (q.chain v.ram h).1 v

/-- The requests that wait: the available ring has them in order from `last_avail` on, each is well formed,
and the device writes neither the rings nor what it still has to read. -/
structure Conforming (env : VblkEnv) (q : VirtioBlkQueue) (heads : List (BitVec 16)) (v : VirtioBlk) : Prop where
  entry : ∀ k (hk : k < heads.length),
    v.ram.half (q.entryOff (q.slotOf (q.lastAvail + BitVec.ofNat 16 k))) = heads[k]
  good : ∀ h ∈ heads, GoodRequest env q v h
  apart : ∀ h ∈ heads, ∀ a, requestWrites q h v a →
    ¬ q.descSeg a ∧ ¬ q.availSeg a ∧ ¬ q.usedSeg a ∧ ∀ h' ∈ heads, ¬ q.headerSeg v.ram h' a
  used : ∀ h ∈ heads, ∀ a, q.usedSeg a → ¬ q.headerSeg v.ram h a ∧ ¬ q.dataSeg v.ram h a

def VirtioBlk.request (q : VirtioBlkQueue) (h : BitVec 16) (v : VirtioBlk) : VirtioBlk :=
  v.transfer (q.chain v.ram h).1 (q.chain v.ram h).2.1 (q.chain v.ram h).2.2

/-- What the requests of a batch ask for, one after the other. -/
def serve (q : VirtioBlkQueue) : List (BitVec 16) → VirtioBlk → VirtioBlk
  | [], v => v
  | h :: heads, v => serve q heads (v.request q h)

section Requests

variable {env : VblkEnv} {q : VirtioBlkQueue} {heads : List (BitVec 16)} {h : BitVec 16} {v v' w : VirtioBlk}

theorem request_frame (hgood : GoodRequest env q v h) : VblkFrame (requestWrites q h v) v (v.request q h) := by
  have hframe : VblkFrame (chainWrites (q.chain v.ram h).1 (q.chain v.ram h).2.1 (q.chain v.ram h).2.2 v) v
      (v.request q h) := handleChain_frame (handleChain_transfers hgood.within hgood.accepted)
  exact ⟨hframe.queues, hframe.config, hframe.features, fun a ha => hframe.ram a fun hw => ha ⟨hgood.valid, hw⟩⟩

structure SameRequests (q : VirtioBlkQueue) (heads : List (BitVec 16)) (v v' : VirtioBlk) : Prop where
  config : v'.config = v.config
  features : v'.deviceFeatures = v.deviceFeatures
  desc : ∀ a, q.descSeg a → v'.ram a = v.ram a
  header : ∀ h ∈ heads, ∀ a, q.headerSeg v.ram h a → v'.ram a = v.ram a

theorem chain_congr (hr : Rings env q) (hgood : GoodRequest env q v h)
    (hdesc : ∀ a, q.descSeg a → v'.ram a = v.ram a) : q.chain v'.ram h = q.chain v.ram h := by
  have hread : ∀ i : BitVec 16, i.toNat < q.queueNum.toNat → v'.ram.desc (q.descOff i) = v.ram.desc (q.descOff i) := by
    intro i hi
    apply Bytes.desc_congr
    intro a ha
    rw [hr.toNat_descOff hi] at ha
    obtain ⟨h0, h1⟩ := ha
    exact hdesc a ⟨by omega, by omega⟩
  unfold VirtioBlkQueue.chain
  simp only
  rw [hread h hgood.head]
  have hnext : v'.ram.desc (q.descOff (v.ram.desc (q.descOff h)).next) =
      v.ram.desc (q.descOff (v.ram.desc (q.descOff h)).next) := hread _ hgood.next
  rw [hnext]
  have hlast : v'.ram.desc (q.descOff (v.ram.desc (q.descOff (v.ram.desc (q.descOff h)).next)).next) =
      v.ram.desc (q.descOff (v.ram.desc (q.descOff (v.ram.desc (q.descOff h)).next)).next) := hread _ hgood.last
  rw [hlast]

theorem header_congr (hheader : ∀ a, q.headerSeg v.ram h a → v'.ram a = v.ram a) :
    v'.ram.word (q.chain v.ram h).1.addr.toNat = v.ram.word (q.chain v.ram h).1.addr.toNat ∧
      v'.ram.dword ((q.chain v.ram h).1.addr.toNat + 8) = v.ram.dword ((q.chain v.ram h).1.addr.toNat + 8) := by
  constructor
  · exact Bytes.word_congr fun i h0 h1 => hheader i ⟨by omega, by omega⟩
  · refine Bytes.dword_congr fun i hi => hheader i ?_
    obtain ⟨h0, h1⟩ := hi
    exact ⟨by omega, by omega⟩

theorem SameRequests.transfers (hs : SameRequests q heads v v') (hmem : h ∈ heads) :
    transfers (q.chain v.ram h).1 v' ↔ transfers (q.chain v.ram h).1 v := by
  obtain ⟨htype, hsector⟩ := header_congr (hs.header h hmem)
  unfold Rv32emu.transfers VirtioBlk.capacity
  rw [htype, hsector, hs.config, hs.features]

theorem SameRequests.good (hr : Rings env q) (hs : SameRequests q heads v v') (hmem : h ∈ heads)
    (hgood : GoodRequest env q v h) : GoodRequest env q v' h := by
  have hchain := chain_congr hr hgood hs.desc
  obtain ⟨-, hsector⟩ := header_congr (hs.header h hmem)
  have ht := hs.transfers hmem
  refine ⟨hgood.head, ?_, ?_, ?_, ?_, ?_⟩
  · rw [hchain]
    exact hgood.next
  · rw [hchain]
    exact hgood.last
  · rw [hchain]
    exact hgood.valid
  · rw [hchain]
    refine ⟨hgood.within.header, hgood.within.status, fun ht' => hgood.within.data (ht.mp ht'), fun ht' => ?_⟩
    rw [hsector]
    exact hgood.within.sectors (ht.mp ht')
  · rw [hchain]
    exact ht.mpr hgood.accepted

theorem SameRequests.writes (hr : Rings env q) (hs : SameRequests q heads v v') (hmem : h ∈ heads)
    (hgood : GoodRequest env q v h) {a : Nat} : requestWrites q h v' a ↔ requestWrites q h v a := by
  obtain ⟨htype, -⟩ := header_congr (hs.header h hmem)
  unfold requestWrites chainWrites
  rw [chain_congr hr hgood hs.desc, htype]

end Requests

/-! ## A turn -/

section Turn

variable {env : VblkEnv} {index : Fin 2} {q : VirtioBlkQueue} {heads : List (BitVec 16)} {h : BitVec 16}
  {u : BitVec 16} {v w : VirtioBlk}

theorem Conforming.nextIdx (hr : Rings env q) (hc : Conforming env q (h :: heads) v) (hq : v.queues index = q) :
    v.nextIdx index = h := by
  have hslot := hr.slotOf_lt q.lastAvail
  have hentry := hc.entry 0 (Nat.zero_lt_succ _)
  rw [show q.lastAvail + BitVec.ofNat 16 0 = q.lastAvail from BitVec.add_zero _] at hentry
  unfold VirtioBlk.nextIdx
  rw [hq, bufferIdx_word]
  change v.ram.half (4 * (q.availWord (q.slotOf q.lastAvail)).toNat + 2 * (q.slotOf q.lastAvail % 2)) = h
  rw [hr.toNat_availWord hslot]
  have hoff : 4 * (q.queueAvail.toNat + 1 + q.slotOf q.lastAvail / 2) + 2 * (q.slotOf q.lastAvail % 2) =
      q.entryOff (q.slotOf q.lastAvail) := by
    unfold VirtioBlkQueue.entryOff
    omega
  rw [hoff]
  exact hentry

theorem inside_of_le {off len size : Nat} (h : off + len ≤ size) : inside off len size = true := by
  unfold inside
  rw [Bool.or_eq_true]
  exact .inr (decide_eq_true h)

theorem GoodRequest.requestInside (hr : Rings env q) (hgood : GoodRequest env q v h) : RequestInside env q h v := by
  have hdesc : ∀ i : BitVec 16, i.toNat < q.queueNum.toNat → inside (q.descOff i) 16 env.memSize = true := by
    intro i hi
    apply inside_of_le
    rw [hr.toNat_descOff hi]
    have := hr.desc
    omega
  exact ⟨hdesc h hgood.head, hdesc _ hgood.next, hdesc _ hgood.last, fun _ => hgood.within⟩

/-- **The first request that waits is served**, and its used element is written. -/
theorem Conforming.turn (hr : Rings env q) (hc : Conforming env q (h :: heads) v) (hq : v.queues index = q) :
    notifyTurn env index u v =
      .ok (true, (v.request q h).complete index u h (q.chain v.ram h).2.1.len q) := by
  subst hq
  have hgood := hc.good h List.mem_cons_self
  have hnum : (v.queues index).queueNum ≠ 0 := by
    intro hzero
    have hpos := hr.num_pos
    rw [hzero] at hpos
    exact absurd hpos (by decide)
  have hslots : ∀ idx, (v.queues index).slot idx = .ok ((v.queues index).slotOf idx) := fun idx => if_neg hnum
  have hlast := hr.slotOf_lt (v.queues index).lastAvail
  have hread : ramWord env ((v.queues index).availWord ((v.queues index).slotOf (v.queues index).lastAvail)) v =
      .ok (v.ram.word (4 * ((v.queues index).availWord
        ((v.queues index).slotOf (v.queues index).lastAvail)).toNat)) := by
    apply if_pos
    apply inside_of_le
    rw [hr.toNat_availWord hlast]
    have := hr.avail
    omega
  have hslot := hr.slotOf_lt u
  have hused := hr.used
  have hset : ∀ x w, setRamWord env ((v.queues index).usedElem u) w x =
      .ok { x with ram := x.ram.putWord (4 * ((v.queues index).usedElem u).toNat) w } := by
    intro x w
    apply if_pos
    apply inside_of_le
    rw [hr.usedElem_off]
    unfold VirtioBlkQueue.elemOff
    omega
  have hset' : ∀ x w, setRamWord env ((v.queues index).usedElem u + 1) w x =
      .ok { x with ram := x.ram.putWord (4 * ((v.queues index).usedElem u + 1).toNat) w } := by
    intro x w
    apply if_pos
    apply inside_of_le
    rw [hr.usedElem_succ_off]
    unfold VirtioBlkQueue.elemOff
    omega
  unfold notifyTurn
  change ((v.queues index).slot _ >>= _) = _
  rw [hslots]
  change (ramWord env _ v >>= _) = _
  rw [hread]
  change (virtioBlkDescHandler env (v.queues index) (v.nextIdx index) v >>= _) = _
  rw [hc.nextIdx hr rfl, handler_transfers (hgood.requestInside hr) hgood.valid hgood.accepted]
  change ((v.queues index).slot u >>= _) = _
  rw [hslots]
  change (setRamWord env ((v.queues index).usedElem u) ((v.nextIdx index).setWidth 32) _ >>= _) = _
  rw [hset, hc.nextIdx hr rfl]
  change (setRamWord env ((v.queues index).usedElem u + 1) _ _ >>= _) = _
  rw [hset']
  rfl

/-- A completed request changes guest RAM in the used element only. -/
theorem complete_ram (hr : Rings env q) {len : Word} {a : Nat} (ha : ¬ seg (q.elemOff (q.slotOf u)) 8 a) :
    (v.complete index u h len q).ram a = v.ram a := by
  change Bytes.putWord (Bytes.putWord v.ram _ _) _ _ a = _
  unfold seg at ha
  rw [Bytes.putWord_of_not_mem, Bytes.putWord_of_not_mem]
  · rw [hr.usedElem_off]
    omega
  · rw [hr.usedElem_succ_off]
    omega

/-- The used element names the request and its length. -/
theorem complete_elem (hr : Rings env q) {len : Word} :
    (v.complete index u h len q).ram.word (q.elemOff (q.slotOf u)) = h.setWidth 32 ∧
      (v.complete index u h len q).ram.word (q.elemOff (q.slotOf u) + 4) = len := by
  have hram : (v.complete index u h len q).ram = (v.ram.putWord (q.elemOff (q.slotOf u)) (h.setWidth 32)).putWord
      (q.elemOff (q.slotOf u) + 4) len := by
    rw [← hr.usedElem_succ_off, ← hr.usedElem_off]
    rfl
  rw [hram]
  refine ⟨?_, Bytes.word_putWord ..⟩
  rw [← Bytes.word_putWord v.ram (q.elemOff (q.slotOf u)) (h.setWidth 32)]
  refine Bytes.word_congr fun i h0 h1 => ?_
  rw [Bytes.word_putWord]
  exact Bytes.putWord_of_not_mem _ (by omega) _

end Turn

/-! ## Batches -/

section Batch

variable {env : VblkEnv} {index : Fin 2} {q : VirtioBlkQueue} {heads : List (BitVec 16)} {h : BitVec 16}
  {u : BitVec 16} {v v' w : VirtioBlk}

structure AgreesOffUsed (q : VirtioBlkQueue) (v w : VirtioBlk) : Prop where
  disk : v.disk = w.disk
  config : v.config = w.config
  features : v.deviceFeatures = w.deviceFeatures
  ram : ∀ a, ¬ q.usedSeg a → v.ram a = w.ram a

theorem elem_usedSeg (hr : Rings env q) {a : Nat} (ha : seg (q.elemOff (q.slotOf u)) 8 a) : q.usedSeg a := by
  have hslot := hr.slotOf_lt u
  unfold seg VirtioBlkQueue.elemOff at ha
  exact ⟨by omega, by omega⟩

/-- The requests that wait after the first one are still there. -/
theorem Conforming.tail (hr : Rings env q) (hc : Conforming env q (h :: heads) v) {len : Word} :
    SameRequests q heads v ((v.request q h).complete index u h len q) ∧
      Conforming env (q.advance 1) heads ((v.request q h).complete index u h len q) := by
  have hframe := request_frame (hc.good h List.mem_cons_self)
  have hwrites := hc.apart h List.mem_cons_self
  have hram : ∀ a, ¬ q.usedSeg a → ¬ requestWrites q h v a →
      ((v.request q h).complete index u h len q).ram a = v.ram a := by
    intro a hused hreq
    rw [complete_ram hr fun he => hused (elem_usedSeg hr he)]
    exact hframe.ram a hreq
  have hsame : SameRequests q heads v ((v.request q h).complete index u h len q) := by
    refine ⟨hframe.config, hframe.features, fun a ha => ?_, fun h' hmem a ha => ?_⟩
    · exact hram a (fun hu => (hr.apart a hu).1 ha) fun hw => (hwrites a hw).1 ha
    · have hmem' : h' ∈ h :: heads := List.mem_cons_of_mem _ hmem
      exact hram a (fun hu => (hc.used h' hmem' a hu).1 ha) fun hw => (hwrites a hw).2.2.2 h' hmem' ha
  have hchain : ∀ h' ∈ heads, q.chain ((v.request q h).complete index u h len q).ram h' = q.chain v.ram h' :=
    fun h' hmem => chain_congr hr (hc.good h' (List.mem_cons_of_mem _ hmem)) hsame.desc
  refine ⟨hsame, fun k hk => ?_, fun h' hmem => ?_, fun h' hmem a ha => ?_, fun h' hmem a ha => ?_⟩
  · have hentry := hc.entry (k + 1) (Nat.succ_lt_succ hk)
    change Bytes.half _ (q.entryOff (q.slotOf (q.lastAvail + 1 + BitVec.ofNat 16 k))) = _
    rw [add_one_ofNat]
    refine Eq.trans (Bytes.half_congr fun a ha => ?_) hentry
    have hslot := hr.slotOf_lt (q.lastAvail + BitVec.ofNat 16 (k + 1))
    have havail : q.availSeg a := by
      unfold seg VirtioBlkQueue.entryOff at ha
      exact ⟨by omega, by omega⟩
    exact hram a (fun hu => (hr.apart a hu).2 havail) fun hw => (hwrites a hw).2.1 havail
  · have hgood := hsame.good hr hmem (hc.good h' (List.mem_cons_of_mem _ hmem))
    exact ⟨hgood.head, hgood.next, hgood.last, hgood.valid, hgood.within, hgood.accepted⟩
  · have hgood := hc.good h' (List.mem_cons_of_mem _ hmem)
    obtain ⟨hdesc, havail, hused, hheaders⟩ :=
      hc.apart h' (List.mem_cons_of_mem _ hmem) a ((hsame.writes hr hmem hgood).mp ha)
    refine ⟨hdesc, havail, hused, fun h'' hmem' hheader => hheaders h'' (List.mem_cons_of_mem _ hmem') ?_⟩
    change seg (q.chain _ h'').1.addr.toNat 16 a at hheader
    rw [hchain h'' hmem'] at hheader
    exact hheader
  · have hused := hc.used h' (List.mem_cons_of_mem _ hmem) a ha
    change ¬ seg (q.chain _ h').1.addr.toNat 16 a ∧ ¬ seg (q.chain _ h').2.1.addr.toNat (q.chain _ h').2.1.len.toNat a
    rw [hchain h' hmem]
    exact hused

/-- A request does the same on devices that agree off the used ring. -/
theorem AgreesOffUsed.request (hr : Rings env q) (hc : Conforming env q heads v) (hmem : h ∈ heads)
    (hm : AgreesOffUsed q v w) : AgreesOffUsed q (v.request q h) (w.request q h) := by
  have hchain : q.chain w.ram h = q.chain v.ram h :=
    chain_congr hr (hc.good h hmem) fun a ha => (hm.ram a fun hu => (hr.apart a hu).1 ha).symm
  have hheader : ∀ a, q.headerSeg v.ram h a → w.ram a = v.ram a :=
    fun a ha => (hm.ram a fun hu => (hc.used h hmem a hu).1 ha).symm
  obtain ⟨htype, hsector⟩ := header_congr hheader
  have hdata : ∀ a, q.dataSeg v.ram h a → v.ram a = w.ram a :=
    fun a ha => hm.ram a fun hu => (hc.used h hmem a hu).2 ha
  unfold VirtioBlk.request VirtioBlk.transfer
  rw [hchain, htype, hsector]
  simp only
  by_cases hread : v.ram.word (q.chain v.ram h).1.addr.toNat = 0
  · rw [if_pos hread, if_pos hread]
    refine ⟨hm.disk, hm.config, hm.features, fun a ha => ?_⟩
    simp only [Bytes.put, Bytes.copy, hm.disk, hm.ram a ha]
  · rw [if_neg hread, if_neg hread]
    refine ⟨?_, hm.config, hm.features, fun a ha => ?_⟩
    · funext i
      simp only [Bytes.copy, hm.disk]
      split_ifs with hi
      · apply hdata
        exact ⟨by omega, by omega⟩
      · rfl
    · simp only [Bytes.put, hm.ram a ha]

theorem AgreesOffUsed.complete (hr : Rings env q) (hm : AgreesOffUsed q v w) {len : Word} :
    AgreesOffUsed q (v.complete index u h len q) w :=
  ⟨hm.disk, hm.config, hm.features, fun a ha => by
    rw [complete_ram hr fun he => ha (elem_usedSeg hr he)]
    exact hm.ram a ha⟩

theorem request_status : (v.request q h).status = v.status := by
  unfold VirtioBlk.request VirtioBlk.transfer
  simp only
  split_ifs
  · rfl
  · rfl

/-- A batch has been served: each request once and in order, and the used ring names them from `u` on. -/
structure BatchServed (q : VirtioBlkQueue) (u : BitVec 16) (heads : List (BitVec 16)) (v w v' : VirtioBlk) : Prop where
  status : v'.status = v.status
  served : AgreesOffUsed q v' (serve q heads w)
  elem : ∀ k (hk : k < heads.length),
    v'.ram.word (q.elemOff (q.slotOf (u + BitVec.ofNat 16 k))) = heads[k].setWidth 32 ∧
      v'.ram.word (q.elemOff (q.slotOf (u + BitVec.ofNat 16 k)) + 4) = (q.chain v.ram heads[k]).2.1.len
  rest : ∀ a, (∀ h ∈ heads, ¬ requestWrites q h v a) →
    (∀ k < heads.length, ¬ seg (q.elemOff (q.slotOf (u + BitVec.ofNat 16 k))) 8 a) → v'.ram a = v.ram a

theorem BatchServed.cons (hr : Rings env q) (hc : Conforming env q (h :: heads) v)
    (hlen : (h :: heads).length ≤ q.queueNum.toNat) {len : Word} (hlen' : len = (q.chain v.ram h).2.1.len)
    (hb : BatchServed q (u + 1) heads ((v.request q h).complete index u h len q) (w.request q h) v') :
    BatchServed q u (h :: heads) v w v' := by
  have hsame : SameRequests q heads v ((v.request q h).complete index u h len q) := (hc.tail hr).1
  have hframe := request_frame (hc.good h List.mem_cons_self)
  have hwrites : ∀ h' ∈ heads, ∀ a, requestWrites q h' ((v.request q h).complete index u h len q) a ↔
      requestWrites q h' v a :=
    fun h' hmem a => hsame.writes hr hmem (hc.good h' (List.mem_cons_of_mem _ hmem))
  -- the element of `u` is not written again
  have hkept : ∀ a, seg (q.elemOff (q.slotOf u)) 8 a →
      v'.ram a = ((v.request q h).complete index u h len q).ram a := by
    intro a ha
    refine hb.rest a (fun h' hmem hw => ?_) fun k hk ha' => ?_
    · exact (hc.apart h' (List.mem_cons_of_mem _ hmem) a ((hwrites h' hmem a).mp hw)).2.2.1 (elem_usedSeg hr ha)
    · rw [add_one_ofNat] at ha'
      have hne : q.slotOf (u + BitVec.ofNat 16 (k + 1)) ≠ q.slotOf u :=
        hr.slotOf_add_ne u (Nat.succ_pos k) (lt_of_lt_of_le (Nat.succ_lt_succ hk) hlen)
      unfold seg VirtioBlkQueue.elemOff at ha ha'
      omega
  refine ⟨hb.status.trans request_status, hb.served, fun k hk => ?_, fun a hreq helem => ?_⟩
  · cases k with
    | zero =>
      have hword : ∀ o, o = q.elemOff (q.slotOf u) ∨ o = q.elemOff (q.slotOf u) + 4 →
          v'.ram.word o = ((v.request q h).complete index u h len q).ram.word o := by
        intro o ho
        exact Bytes.word_congr fun i h0 h1 => hkept i ⟨by omega, by omega⟩
      have helem : ((v.request q h).complete index u h len q).ram.word (q.elemOff (q.slotOf u)) = h.setWidth 32 ∧
          ((v.request q h).complete index u h len q).ram.word (q.elemOff (q.slotOf u) + 4) = len := complete_elem hr
      rw [show u + BitVec.ofNat 16 0 = u from BitVec.add_zero u, List.getElem_cons_zero, ← hlen',
        hword _ (.inl rfl), hword _ (.inr rfl)]
      exact helem
    | succ k =>
      have hk' : k < heads.length := Nat.lt_of_succ_lt_succ hk
      have helem := hb.elem k hk'
      rw [add_one_ofNat] at helem
      rw [List.getElem_cons_succ]
      rw [chain_congr hr (hc.good _ (List.mem_cons_of_mem _ (List.getElem_mem hk'))) hsame.desc] at helem
      exact helem
  · have hrest := hb.rest a (fun h' hmem hw => hreq h' (List.mem_cons_of_mem _ hmem) ((hwrites h' hmem a).mp hw))
      fun k hk => by rw [add_one_ofNat]; exact helem (k + 1) (Nat.succ_lt_succ hk)
    have helem0 := helem 0 (Nat.zero_lt_succ _)
    rw [show u + BitVec.ofNat 16 0 = u from BitVec.add_zero u] at helem0
    rw [hrest, complete_ram hr helem0]
    exact hframe.ram a (hreq h List.mem_cons_self)

theorem VirtioBlkQueue.advance_one (q : VirtioBlkQueue) (k : Nat) :
    (q.advance 1).advance (BitVec.ofNat 16 k) = q.advance (BitVec.ofNat 16 (k + 1)) := by
  unfold VirtioBlkQueue.advance
  simp only [add_one_ofNat]

theorem serve_advance (q : VirtioBlkQueue) (k : BitVec 16) (heads : List (BitVec 16)) (v : VirtioBlk) :
    serve (q.advance k) heads v = serve q heads v := by
  induction heads generalizing v with
  | nil => rfl
  | cons h heads ih => exact ih (v.request q h)

/-- **The loop serves the requests that wait**, each once and in order. -/
theorem notifyLoop_served (hr : Rings env q) (hc : Conforming env q heads v) (hq : v.queues index = q)
    (hlen : heads.length ≤ q.queueNum.toNat) (hm : AgreesOffUsed q v w) :
    ∃ v', notifyLoop env index (q.lastAvail + BitVec.ofNat 16 heads.length) heads.length u v =
        .ok (some (u + BitVec.ofNat 16 heads.length), v') ∧
      v'.queues index = q.advance (BitVec.ofNat 16 heads.length) ∧ BatchServed q u heads v w v' := by
  induction heads generalizing q u v w with
  | nil =>
    refine ⟨v, ?_, ?_, rfl, hm, fun k hk => absurd hk (Nat.not_lt_zero k), fun _ _ _ => rfl⟩
    · rw [List.length_nil, show u + BitVec.ofNat 16 0 = u from BitVec.add_zero u]
      rfl
    · rw [hq]
      exact (VirtioBlkQueue.advance_zero q).symm
  | cons h heads ih =>
    have hmore : ¬ (v.queues index).lastAvail = q.lastAvail + BitVec.ofNat 16 (heads.length + 1) := by
      intro heq
      have hnum := hr.num
      have hzero : BitVec.ofNat 16 (heads.length + 1) = 0#16 := by
        rw [hq] at heq
        exact left_eq_add.mp heq
      have htoNat := congrArg BitVec.toNat hzero
      rw [BitVec.toNat_ofNat] at htoNat
      have hsucc : heads.length + 1 ≤ q.queueNum.toNat := hlen
      change (heads.length + 1) % 65536 = 0 at htoNat
      omega
    have htail : Conforming env (q.advance 1) heads
        ((v.request q h).complete index u h (q.chain v.ram h).2.1.len q) := (hc.tail hr).2
    have hr1 : Rings env (q.advance 1) := ⟨hr.mem, hr.pow, hr.num, hr.desc, hr.avail, hr.used, hr.apart⟩
    have hm1 : AgreesOffUsed q ((v.request q h).complete index u h (q.chain v.ram h).2.1.len q) (w.request q h) :=
      (hm.request hr hc List.mem_cons_self).complete hr
    obtain ⟨v', hloop, hq', hb⟩ := ih (u := u + 1) hr1 htail (Function.update_self ..) (Nat.le_of_succ_le hlen)
      ⟨hm1.disk, hm1.config, hm1.features, hm1.ram⟩
    refine ⟨v', ?_, ?_, ?_⟩
    · rw [List.length_cons, notifyLoop, if_neg hmore, hc.turn hr hq]
      change notifyLoop env index (q.lastAvail + BitVec.ofNat 16 (heads.length + 1)) heads.length (u + 1) _ = _
      rw [← add_one_ofNat, ← add_one_ofNat]
      exact hloop
    · rw [hq', VirtioBlkQueue.advance_one]
      rfl
    · have hserved := hb.served
      rw [serve_advance] at hserved
      have hb1 : BatchServed q (u + 1) heads ((v.request q h).complete index u h (q.chain v.ram h).2.1.len q)
          (w.request q h) v' :=
        ⟨hb.status, ⟨hserved.disk, hserved.config, hserved.features, hserved.ram⟩, hb.elem, hb.rest⟩
      exact hb1.cons hr hc hlen rfl

end Batch

/-! ## Notifications -/

section Notify

variable {env : VblkEnv} {index : Fin 2} {heads : List (BitVec 16)} {v v' : VirtioBlk}

/-- The queue is in use, and the requests `heads` wait in it. -/
structure Waiting (env : VblkEnv) (index : Fin 2) (heads : List (BitVec 16)) (v : VirtioBlk) : Prop where
  reset : v.needsReset = false
  driver : v.driverOk = true
  ready : (v.queues index).ready = true
  rings : Rings env (v.queues index)
  conforming : Conforming env (v.queues index) heads v
  avail : v.availIdx index = (v.queues index).lastAvail + BitVec.ofNat 16 heads.length
  outstanding : heads.length ≤ (v.queues index).queueNum.toNat

/-- What a notification does about the requests that wait. -/
structure Notified (index : Fin 2) (heads : List (BitVec 16)) (v v' : VirtioBlk) : Prop where
  status : v'.status = v.status
  queue : v'.queues index = (v.queues index).advance (BitVec.ofNat 16 heads.length)
  availIdx : v'.availIdx index = v.availIdx index
  usedIdx : v'.usedIdx index = v.usedIdx index + BitVec.ofNat 16 heads.length
  served : AgreesOffUsed (v.queues index) v' (serve (v.queues index) heads v)
  elem : ∀ k (hk : k < heads.length),
    v'.ram.word ((v.queues index).elemOff ((v.queues index).slotOf (v.usedIdx index + BitVec.ofNat 16 k))) =
        heads[k].setWidth 32 ∧
      v'.ram.word ((v.queues index).elemOff ((v.queues index).slotOf (v.usedIdx index + BitVec.ofNat 16 k)) + 4) =
        ((v.queues index).chain v.ram heads[k]).2.1.len

/-- The signed comparison lets a batch of at most `queue_num` requests pass, also across the wrap-around. -/
theorem Waiting.sizeCheck (hw : Waiting env index heads v) :
    sizeCheckFails (v.queues index) (v.availIdx index) = false := by
  have hnum := hw.rings.num
  have hout := hw.outstanding
  have hlast : (v.queues index).lastAvail.toNat < 65536 := (v.queues index).lastAvail.isLt
  have hidx : (v.availIdx index).toNat = ((v.queues index).lastAvail.toNat + heads.length) % 65536 := by
    rw [hw.avail, BitVec.toNat_add, BitVec.toNat_ofNat]
    omega
  have hwidth : ((v.queues index).queueNum.setWidth 16).toNat = (v.queues index).queueNum.toNat := by
    rw [BitVec.toNat_setWidth]
    omega
  unfold sizeCheckFails
  rw [hwidth, hidx, decide_eq_false_iff_not]
  omega

/-- The index of the used ring is published, and no other byte outside its first word changes. -/
theorem publishUsed_eq {q : VirtioBlkQueue} (hr : Rings env q) (u : BitVec 16) (w : VirtioBlk) :
    ∃ w', publishUsed env q u w = .ok w' ∧ w'.queues = w.queues ∧ w'.status = w.status ∧
      w'.disk = w.disk ∧ w'.config = w.config ∧ w'.deviceFeatures = w.deviceFeatures ∧
      w'.ram.half (4 * q.queueUsed.toNat + 2) = u ∧ ∀ a, ¬ seg (4 * q.queueUsed.toNat) 4 a → w'.ram a = w.ram a := by
  have hused : inside (4 * q.queueUsed.toNat) 4 env.memSize = true := by
    apply inside_of_le
    have := hr.used
    omega
  have havail : inside (4 * q.queueAvail.toNat) 4 env.memSize = true := by
    apply inside_of_le
    have := hr.avail
    omega
  have hok : ∃ w', publishUsed env q u w = .ok w' := by
    unfold publishUsed ramWord setRamWord
    simp only [hused, havail, if_true]
    exact ⟨_, rfl⟩
  obtain ⟨w', hw'⟩ := hok
  refine ⟨w', hw', (publishUsed_ok hw').1, ?_⟩
  have hidx := (publishUsed_ok hw').2
  obtain ⟨x, -, h⟩ := bind_ok hw'
  obtain ⟨w1, h1, h⟩ := bind_ok h
  obtain ⟨-, rfl⟩ := ite_ok h1
  obtain ⟨y, -, h⟩ := bind_ok h
  have hw := Except.ok.inj h
  split_ifs at hw
  · subst hw
    exact ⟨rfl, rfl, rfl, rfl, hidx, fun a ha => Bytes.putWord_of_not_mem _ ha _⟩
  · subst hw
    exact ⟨rfl, rfl, rfl, rfl, hidx, fun a ha => Bytes.putWord_of_not_mem _ ha _⟩

/-- **A notification serves the requests that wait.** -/
theorem notify_notified (hw : Waiting env index heads v) :
    ∃ v', virtioQueueNotifyHandler env index v = .ok v' ∧ Notified index heads v v' := by
  have hr := hw.rings
  have hread : ramWord env (v.queues index).queueAvail v =
      .ok (v.ram.word (4 * (v.queues index).queueAvail.toNat)) := by
    apply if_pos
    apply inside_of_le
    have := hr.avail
    omega
  have hready : (!(v.driverOk && (v.queues index).ready)) = false := by rw [hw.driver, hw.ready]; rfl
  unfold virtioQueueNotifyHandler
  simp only
  rw [hw.reset, if_neg Bool.false_ne_true, hready, if_neg Bool.false_ne_true, hread]
  change ∃ v', (if sizeCheckFails (v.queues index) (v.availIdx index) = true then _ else
    if (v.queues index).lastAvail = v.availIdx index then _ else _ : VblkM VirtioBlk) = _ ∧ _
  rw [hw.sizeCheck, if_neg Bool.false_ne_true]
  by_cases hmore : (v.queues index).lastAvail = v.availIdx index
  · -- nothing waits
    have hnil : heads = [] := by
      have havail := hw.avail
      rw [← hmore] at havail
      have hzero := congrArg BitVec.toNat (left_eq_add.mp havail)
      rw [BitVec.toNat_ofNat] at hzero
      have hnum := hr.num
      have hout := hw.outstanding
      change heads.length % 65536 = 0 at hzero
      exact List.length_eq_zero_iff.mp (by omega)
    subst hnil
    rw [if_pos hmore]
    refine ⟨v, rfl, rfl, (VirtioBlkQueue.advance_zero _).symm, rfl, (BitVec.add_zero _).symm,
      ⟨rfl, rfl, rfl, fun _ _ => rfl⟩,
      fun k hk => absurd hk (Nat.not_lt_zero k)⟩
  · rw [if_neg hmore]
    have hread' : ramWord env (v.queues index).queueUsed v =
        .ok (v.ram.word (4 * (v.queues index).queueUsed.toNat)) := by
      apply if_pos
      apply inside_of_le
      have := hr.used
      omega
    have hused : ringIdx (v.ram.word (4 * (v.queues index).queueUsed.toNat)) = v.usedIdx index := ringIdx_word ..
    have hsize : (v.availIdx index - (v.queues index).lastAvail).toNat = heads.length := by
      have hnum := hr.num
      have hout := hw.outstanding
      rw [hw.avail, add_sub_cancel_left, BitVec.toNat_ofNat]
      omega
    obtain ⟨v1, hloop, hq1, hb⟩ :=
      notifyLoop_served (u := v.usedIdx index) hr hw.conforming rfl hw.outstanding ⟨rfl, rfl, rfl, fun _ _ => rfl⟩
    obtain ⟨v', hpub, hqueues, hstatus, hdisk, hconfig, hfeatures, hidx, hram⟩ :=
      publishUsed_eq hr (v.usedIdx index + BitVec.ofNat 16 heads.length) v1
    refine ⟨v', ?_, ?_⟩
    · rw [hread']
      change (notifyLoop env index (v.availIdx index) (v.availIdx index - (v.queues index).lastAvail).toNat
        (ringIdx (v.ram.word (4 * (v.queues index).queueUsed.toNat))) v >>= _) = _
      rw [hused, hsize, hw.avail, hloop]
      exact hpub
    have hq' : v'.queues index = (v.queues index).advance (BitVec.ofNat 16 heads.length) := by rw [hqueues, hq1]
    have hfirst : ∀ a, seg (4 * (v.queues index).queueUsed.toNat) 4 a → (v.queues index).usedSeg a :=
      fun a ha => ⟨ha.1, lt_of_lt_of_le ha.2 (by omega)⟩
    refine ⟨hstatus.trans hb.status, hq', ?_, ?_, ?_, fun k hk => ?_⟩
    · have hword : v'.ram.word (4 * (v.queues index).queueAvail.toNat) =
          v.ram.word (4 * (v.queues index).queueAvail.toNat) := by
        refine Bytes.word_congr fun i h0 h1 => ?_
        have havail : (v.queues index).availSeg i := ⟨h0, by omega⟩
        have hnot : ¬ (v.queues index).usedSeg i := fun hu => (hr.apart i hu).2 havail
        rw [hram i fun h => hnot (hfirst i h)]
        exact hb.rest i (fun h hmem hwr => (hw.conforming.apart h hmem i hwr).2.1 havail)
          fun k _ he => hnot (elem_usedSeg hr he)
      unfold VirtioBlk.availIdx
      rw [hq']
      exact congrArg ringIdx hword
    · unfold VirtioBlk.usedIdx VirtioBlk.usedIdxOff
      rw [hq']
      exact hidx
    · refine ⟨hdisk.trans hb.served.disk, hconfig.trans hb.served.config, hfeatures.trans hb.served.features,
        fun a ha => ?_⟩
      rw [hram a fun h => ha (hfirst a h)]
      exact hb.served.ram a ha
    · have hword : ∀ o, (v.queues index).elemOff 0 ≤ o → v'.ram.word o = v1.ram.word o := by
        intro o ho
        unfold VirtioBlkQueue.elemOff at ho
        refine Bytes.word_congr fun i h0 h1 => hram i fun h => ?_
        obtain ⟨hs0, hs1⟩ := h
        omega
      rw [hword, hword]
      · exact hb.elem k hk
      · unfold VirtioBlkQueue.elemOff
        omega
      · unfold VirtioBlkQueue.elemOff
        omega

end Notify

/-! ## Runs -/

inductive DriverOp
  /-- Guest memory is changed, and the requests `heads` are added to the available ring. -/
  | submit (ram : Bytes) (heads : List (BitVec 16))
  | notify
  /-- A write to another register. -/
  | write (addr value : Word)

/-- The requests submitted so far, and how many of them were there at the last notification. -/
abbrev Progress := List (BitVec 16) × Nat

def Progress.step (s : Progress) : DriverOp → Progress
  | .submit _ heads => (s.1 ++ heads, s.2)
  | .notify => (s.1, s.1.length)
  | .write .. => s

def Progress.waiting (s : Progress) : List (BitVec 16) := s.1.drop s.2

namespace DriverOp

def toOp (index : Fin 2) : DriverOp → VblkOp
  | .submit ram _ => .memory ram
  | .notify => .write 0x050 (BitVec.ofNat 32 index)
  | .write addr value => .write addr value

/-- A write that leaves the queue and the rest of the device alone, but for the interrupts, the selectors and
the other queue. -/
structure LeavesQueue (index : Fin 2) (v v' : VirtioBlk) : Prop where
  queue : v'.queues index = v.queues index
  status : v'.status = v.status
  config : v'.config = v.config
  features : v'.deviceFeatures = v.deviceFeatures
  ram : v'.ram = v.ram
  disk : v'.disk = v.disk

/-- The driver advances `avail.idx` by the number of requests it adds, leaves `used.idx` alone and has at most
`queue_num` well-formed requests waiting. -/
def Conforms (env : VblkEnv) (index : Fin 2) (s : Progress) (v : VirtioBlk) : DriverOp → Prop
  | .submit ram heads =>
    VirtioBlk.availIdx index { v with ram } = v.availIdx index + BitVec.ofNat 16 heads.length ∧
      VirtioBlk.usedIdx index { v with ram } = v.usedIdx index ∧
      (s.waiting ++ heads).length ≤ (v.queues index).queueNum.toNat ∧
      Conforming env (v.queues index) (s.waiting ++ heads) { v with ram }
  | .notify => True
  | .write addr value => ∃ v', virtioBlkWrite env addr value v = .ok v' ∧ LeavesQueue index v v'

end DriverOp

def ConformingRun (env : VblkEnv) (index : Fin 2) : List DriverOp → Progress → VirtioBlk → Prop
  | [], _, _ => True
  | op :: ops, s, v => op.Conforms env index s v ∧
    ∀ v', (op.toOp index).exec env v = .ok v' → ConformingRun env index ops (s.step op) v'

section Runs

variable {env : VblkEnv} {index : Fin 2} {s : Progress} {v v' : VirtioBlk}

structure RunInv (env : VblkEnv) (index : Fin 2) (s : Progress) (v : VirtioBlk) : Prop where
  waiting : Waiting env index s.waiting v
  done : s.2 ≤ s.1.length
  used : v.usedIdx index = BitVec.ofNat 16 s.2

theorem write_notify : virtioBlkWrite env 0x050 (BitVec.ofNat 32 index) v = virtioQueueNotifyHandler env index v := by
  fin_cases index
  · rfl
  · rfl

theorem conforming_nil (q : VirtioBlkQueue) : Conforming env q [] v :=
  ⟨fun k hk => absurd hk (Nat.not_lt_zero k), fun _ h => absurd h List.not_mem_nil,
    fun _ h => absurd h List.not_mem_nil, fun _ h => absurd h List.not_mem_nil⟩

theorem Conforming.congr {q : VirtioBlkQueue} {heads : List (BitVec 16)} (hr : Rings env q)
    (hc : Conforming env q heads v) (hram : v'.ram = v.ram) (hconfig : v'.config = v.config)
    (hfeatures : v'.deviceFeatures = v.deviceFeatures) : Conforming env q heads v' := by
  have hsame : SameRequests q heads v v' := ⟨hconfig, hfeatures, fun a _ => congrFun hram a,
    fun _ _ a _ => congrFun hram a⟩
  refine ⟨?_, fun h hmem => hsame.good hr hmem (hc.good h hmem), fun h hmem a ha => ?_, ?_⟩
  · rw [hram]
    exact hc.entry
  · rw [hram]
    exact hc.apart h hmem a ((hsame.writes hr hmem (hc.good h hmem)).mp ha)
  · rw [hram]
    exact hc.used

/-- The requests that wait when `heads` are added. -/
theorem Progress.waiting_submit (hs : s.2 ≤ s.1.length) (ram : Bytes) (heads : List (BitVec 16)) :
    (s.step (.submit ram heads)).waiting = s.waiting ++ heads := List.drop_append_of_le_length hs

theorem Progress.waiting_notify : (s.step .notify).waiting = [] := List.drop_length

theorem RunInv.notified (hi : RunInv env index s v) (hn : Notified index s.waiting v v') :
    RunInv env index (s.step .notify) v' := by
  have hw := hi.waiting
  have hlen : s.waiting.length = s.1.length - s.2 := List.length_drop
  refine ⟨?_, le_rfl, ?_⟩
  · rw [Progress.waiting_notify]
    refine ⟨?_, ?_, ?_, ?_, conforming_nil _, ?_, Nat.zero_le _⟩
    · unfold VirtioBlk.needsReset
      rw [hn.status]
      exact hw.reset
    · unfold VirtioBlk.driverOk
      rw [hn.status]
      exact hw.driver
    · rw [hn.queue]
      exact hw.ready
    · rw [hn.queue]
      exact ⟨hw.rings.mem, hw.rings.pow, hw.rings.num, hw.rings.desc, hw.rings.avail, hw.rings.used, hw.rings.apart⟩
    · rw [hn.availIdx, hn.queue, hw.avail]
      exact (BitVec.add_zero _).symm
  · have hdone := hi.done
    rw [hn.usedIdx, hi.used, ← BitVec.ofNat_add, hlen]
    congr 1
    change s.2 + (s.1.length - s.2) = s.1.length
    omega

/-- **A step of a conforming driver** succeeds and keeps the invariant. -/
theorem RunInv.step (hi : RunInv env index s v) {op : DriverOp} (hop : op.Conforms env index s v) :
    ∃ v', (op.toOp index).exec env v = .ok v' ∧ RunInv env index (s.step op) v' := by
  have hw := hi.waiting
  cases op with
  | submit ram heads =>
    obtain ⟨havail, hused, hlen, hconf⟩ := hop
    refine ⟨{ v with ram }, rfl, ?_, ?_, ?_⟩
    · rw [Progress.waiting_submit hi.done]
      refine ⟨hw.reset, hw.driver, hw.ready, hw.rings, hconf, ?_, hlen⟩
      rw [havail, hw.avail, BitVec.add_assoc, ← BitVec.ofNat_add, List.length_append]
    · have hdone := hi.done
      change s.2 ≤ (s.1 ++ heads).length
      rw [List.length_append]
      omega
    · exact hused.trans hi.used
  | notify =>
    obtain ⟨v', hv', hn⟩ := notify_notified hw
    exact ⟨v', write_notify.trans hv', hi.notified hn⟩
  | write addr value =>
    obtain ⟨v', hv', hl⟩ := hop
    have hram := hl.ram
    refine ⟨v', hv', ⟨?_, ?_, ?_, ?_, ?_, ?_, ?_⟩, hi.done, ?_⟩
    · unfold VirtioBlk.needsReset
      rw [hl.status]
      exact hw.reset
    · unfold VirtioBlk.driverOk
      rw [hl.status]
      exact hw.driver
    · rw [hl.queue]
      exact hw.ready
    · rw [hl.queue]
      exact hw.rings
    · rw [hl.queue]
      exact hw.conforming.congr hw.rings hl.ram hl.config hl.features
    · unfold VirtioBlk.availIdx
      rw [hl.queue, hl.ram]
      exact hw.avail
    · rw [hl.queue]
      exact hw.outstanding
    · unfold VirtioBlk.usedIdx VirtioBlk.usedIdxOff
      rw [hl.queue, hl.ram]
      exact hi.used

theorem RunInv.run {ops : List DriverOp} (hi : RunInv env index s v) (hrun : ConformingRun env index ops s v) :
    ∃ v', vblkRun env (ops.map (·.toOp index)) v = .ok v' ∧ RunInv env index (ops.foldl Progress.step s) v' := by
  induction ops generalizing s v with
  | nil => exact ⟨v, rfl, hi⟩
  | cons op ops ih =>
    obtain ⟨v1, hexec, hi1⟩ := hi.step hrun.1
    obtain ⟨v', hv', hi'⟩ := ih hi1 (hrun.2 v1 hexec)
    refine ⟨v', ?_, hi'⟩
    rw [List.map_cons, vblkRun, hexec]
    exact hv'

/-- The device as the driver has set it up: nothing waits, and `used.idx` is zero. -/
structure Started (env : VblkEnv) (index : Fin 2) (v : VirtioBlk) : Prop where
  reset : v.needsReset = false
  driver : v.driverOk = true
  ready : (v.queues index).ready = true
  rings : Rings env (v.queues index)
  avail : v.availIdx index = (v.queues index).lastAvail
  used : v.usedIdx index = 0

/-- A notification after the requests `s.1` were submitted, of which the last one found `s.2`. -/
structure Served (index : Fin 2) (s : Progress) (v v' : VirtioBlk) : Prop where
  /-- Each request that waits is handled once, in the order of submission. -/
  handled : AgreesOffUsed (v.queues index) v' (serve (v.queues index) s.waiting v)
  /-- The element of the `k`-th request. -/
  elem : ∀ k (hk : k < s.1.length), s.2 ≤ k →
    v'.ram.word ((v.queues index).elemOff (k % (v.queues index).queueNum.toNat)) = s.1[k].setWidth 32 ∧
      v'.ram.word ((v.queues index).elemOff (k % (v.queues index).queueNum.toNat) + 4) =
        ((v.queues index).chain v.ram s.1[k]).2.1.len
  lastAvail : (v'.queues index).lastAvail = v'.availIdx index
  advance : (v'.queues index).lastAvail = (v.queues index).lastAvail + BitVec.ofNat 16 (s.1.length - s.2) ∧
    v'.usedIdx index = v.usedIdx index + BitVec.ofNat 16 (s.1.length - s.2)

theorem Notified.toServed (hi : RunInv env index s v) (hn : Notified index s.waiting v v') : Served index s v v' := by
  have hlen : s.waiting.length = s.1.length - s.2 := List.length_drop
  refine ⟨hn.served, fun k hk hle => ?_, ?_, ?_, ?_⟩
  · have hk' : k - s.2 < s.waiting.length := by omega
    have helem := hn.elem (k - s.2) hk'
    have hget : s.waiting[k - s.2] = s.1[k] := by
      have hadd : s.2 + (k - s.2) = k := Nat.add_sub_cancel' hle
      simp only [Progress.waiting, List.getElem_drop, hadd]
    have hslot : (v.queues index).slotOf (v.usedIdx index + BitVec.ofNat 16 (k - s.2)) =
        k % (v.queues index).queueNum.toNat := by
      rw [hi.used, ← BitVec.ofNat_add, hi.waiting.rings.slotOf_ofNat]
      congr 1
      omega
    rw [hget, hslot] at helem
    exact helem
  · rw [hn.availIdx, hn.queue, hi.waiting.avail]
    rfl
  · rw [hn.queue, hlen]
    rfl
  · rw [hn.usedIdx, hlen]

/-- **In every run of a conforming driver, every notification handles each request that waits exactly once and
in order**: the `k`-th request of the run is completed in slot `k % queue_num`, and both indices have caught up. -/
theorem conformingRun_served (hstart : Started env index v) (ops : List DriverOp)
    (hrun : ConformingRun env index ops ([], 0) v) :
    ∃ w w', vblkRun env (ops.map (·.toOp index)) v = .ok w ∧ virtioQueueNotifyHandler env index w = .ok w' ∧
      Served index (ops.foldl Progress.step ([], 0)) w w' := by
  have hi : RunInv env index ([], 0) v := by
    refine ⟨⟨hstart.reset, hstart.driver, hstart.ready, hstart.rings, conforming_nil _, ?_, Nat.zero_le _⟩, le_rfl,
      hstart.used⟩
    rw [hstart.avail]
    exact (BitVec.add_zero _).symm
  obtain ⟨w, hw, hiw⟩ := hi.run hrun
  obtain ⟨w', hw', hn⟩ := notify_notified hiw.waiting
  exact ⟨w, w', hw, hw', hn.toServed hiw⟩

end Runs

/-! ## A read -/

/-- The device after `vblkSetup`. -/
def setUp : VirtioBlk := { twoPending with ram := fun _ => 0 }

theorem setUp_started : Started smallEnv 0 setUp := by
  refine ⟨by decide, by decide, by decide, ⟨by decide, ⟨2, by decide⟩, by decide, by decide, by decide, by decide, ?_⟩,
    by decide +kernel, by decide +kernel⟩
  intro a ha
  change 512 ≤ a ∧ a < 550 at ha
  refine ⟨fun h => ?_, fun h => ?_⟩
  · change 0 ≤ a ∧ a < 64 at h
    omega
  · change 256 ≤ a ∧ a < 270 at h
    omega

/-- A read of 16 bytes to `addr` waits; its chain begins at descriptor 0. -/
theorem oneRead_conforming (v : VirtioBlk) (l : BitVec 16) (addr : BitVec 64)
    (hq : v.queues 0 = { setUp.queues 0 with lastAvail := l }) (haddr : 2048 ≤ addr.toNat ∧ addr.toNat + 16 ≤ 3000)
    (hchain : (setUp.queues 0).chain v.ram 0 = (⟨1024, 16, 1, 1⟩, ⟨addr, 16, 3, 2⟩, ⟨3000, 1, 2, 0⟩))
    (hentry : v.ram.half ((setUp.queues 0).entryOff ((setUp.queues 0).slotOf l)) = 0)
    (hgood : GoodRequest smallEnv (v.queues 0) v 0) : Conforming smallEnv (v.queues 0) [0] v := by
  have hheader : ∀ a, (setUp.queues 0).headerSeg v.ram 0 a → 1024 ≤ a ∧ a < 1040 := by
    intro a ha
    unfold VirtioBlkQueue.headerSeg at ha
    rw [hchain] at ha
    exact ha
  rw [hq] at hgood ⊢
  refine ⟨fun k hk => ?_, fun h hmem => ?_, fun h hmem a ha => ?_, fun h hmem a ha => ?_⟩
  · obtain rfl : k = 0 := Nat.lt_one_iff.mp hk
    change v.ram.half ((setUp.queues 0).entryOff ((setUp.queues 0).slotOf (l + 0#16))) = 0
    rw [BitVec.add_zero]
    exact hentry
  · obtain rfl := List.mem_singleton.mp hmem
    exact hgood
  · obtain rfl := List.mem_singleton.mp hmem
    have hwrites : a = 3000 ∨ addr.toNat ≤ a ∧ a < addr.toNat + 16 := by
      have hw : chainWrites ((setUp.queues 0).chain v.ram 0).1 ((setUp.queues 0).chain v.ram 0).2.1
        ((setUp.queues 0).chain v.ram 0).2.2 v a := ha.2
      unfold chainWrites at hw
      rw [hchain] at hw
      exact hw.imp_right And.right
    refine ⟨fun h => ?_, fun h => ?_, fun h => ?_, fun h' hmem' h => ?_⟩
    · change 0 ≤ a ∧ a < 64 at h
      omega
    · change 256 ≤ a ∧ a < 270 at h
      omega
    · change 512 ≤ a ∧ a < 550 at h
      omega
    · obtain rfl := List.mem_singleton.mp hmem'
      have := hheader a h
      omega
  · obtain rfl := List.mem_singleton.mp hmem
    change 512 ≤ a ∧ a < 550 at ha
    refine ⟨fun h => ?_, fun h => ?_⟩
    · have := hheader a h
      omega
    · have hdata : seg ((setUp.queues 0).chain v.ram 0).2.1.addr.toNat
        ((setUp.queues 0).chain v.ram 0).2.1.len.toNat a := h
      rw [hchain] at hdata
      change addr.toNat ≤ a ∧ a < addr.toNat + 16 at hdata
      omega

/-- A second read behind the first, which has been completed. -/
def secondRequest : Bytes := ramOf
  [(0, 1024), (8, 16), (12, 0x00010001), (16, 2064), (24, 16), (28, 0x00020003), (32, 3000), (40, 1), (44, 2),
   (256, 0x00020000), (512, 0x00010000)]

def firstServed : VirtioBlk :=
  ((VblkOp.write 0x050 0).exec smallEnv { setUp with ram := readRequest 2048 16 }).toOption.getD setUp

theorem readRequest_conforming :
    Conforming smallEnv (setUp.queues 0) [0] { setUp with ram := readRequest 2048 16 } := by
  refine oneRead_conforming { setUp with ram := readRequest 2048 16 } 0 2048 rfl (by decide) (by decide +kernel)
    (by decide +kernel) ?_
  refine ⟨by decide, by decide +kernel, by decide +kernel, by decide +kernel, ⟨by decide +kernel, by decide +kernel,
    fun _ => by decide +kernel, fun _ => by decide +kernel⟩, ?_⟩
  unfold transfers
  decide +kernel

theorem secondRequest_conforming :
    Conforming smallEnv (firstServed.queues 0) [0] { firstServed with ram := secondRequest } := by
  refine oneRead_conforming { firstServed with ram := secondRequest } 1 2064 (by decide +kernel) (by decide)
    (by decide +kernel) (by decide +kernel) ?_
  refine ⟨by decide +kernel, by decide +kernel, by decide +kernel, by decide +kernel, ⟨by decide +kernel,
    by decide +kernel, fun _ => by decide +kernel, fun _ => by decide +kernel⟩, ?_⟩
  unfold transfers
  decide +kernel

/-- Two reads, each with its notification. -/
theorem conformingRun_served_reads :
    ∃ w w', vblkRun smallEnv [.memory (readRequest 2048 16), .write 0x050 0, .memory secondRequest] setUp = .ok w ∧
      virtioQueueNotifyHandler smallEnv 0 w = .ok w' ∧ Served 0 ([0, 0], 1) w w' := by
  refine conformingRun_served setUp_started [.submit (readRequest 2048 16) [0], .notify, .submit secondRequest [0]]
    ⟨⟨by decide +kernel, by decide +kernel, by decide, readRequest_conforming⟩, fun v hv => ⟨trivial, fun w hw => ?_⟩⟩
  cases hv
  obtain rfl : firstServed = w := by
    unfold firstServed
    rw [show (VblkOp.write 0x050 0).exec smallEnv { setUp with ram := readRequest 2048 16 } = .ok w from hw]
    rfl
  exact ⟨⟨by decide +kernel, by decide +kernel, by decide +kernel, secondRequest_conforming⟩, fun _ _ => trivial⟩

end Rv32emu
