import Rv32emu.Fallible
import Rv32emu.Virtio
import Mathlib.Tactic.IntervalCases

/-!
# Notifications of the virtio block device

* `handler_frame`, `notifyTurn_cases` : what a request and a turn of the loop can change;
* `batchFailure` : the first request of a batch that fails, if any;
* `notify_used_advances_iff` : the used ring advances with the available ring exactly if no request, or the
  first one, fails.
-/

namespace Rv32emu

/-! ## Memory -/

namespace Bytes

theorem word_putWord (m : Bytes) (a : Nat) (w : Word) : (m.putWord a w).word a = w := by
  have hbytes : ∀ k < 4, m.putWord a w (a + k) = w.extractLsb' (8 * k) 8 := by
    intro k hk
    have hin : a ≤ a + k ∧ a + k < a + 4 := by omega
    rw [putWord, if_pos hin, Nat.add_sub_cancel_left]
  have h0 : m.putWord a w a = w.extractLsb' 0 8 := hbytes 0 (by decide)
  unfold word
  rw [hbytes 3 (by decide), hbytes 2 (by decide), hbytes 1 (by decide), h0]
  apply BitVec.eq_of_getLsbD_eq
  intro i hi
  have hi' : i < 32 := hi
  simp only [BitVec.getLsbD_append, BitVec.getLsbD_extractLsb']
  interval_cases i <;> rfl

theorem putWord_of_not_mem (m : Bytes) {a i : Nat} (h : ¬ (a ≤ i ∧ i < a + 4)) (w : Word) :
    m.putWord a w i = m i := if_neg h

theorem word_congr {m m' : Bytes} {a : Nat} (h : ∀ i, a ≤ i → i < a + 4 → m i = m' i) : m.word a = m'.word a := by
  unfold word
  rw [h (a + 3) (by omega) (by omega), h (a + 2) (by omega) (by omega), h (a + 1) (by omega) (by omega),
    h a (by omega) (by omega)]

end Bytes

theorem ringIdx_word (m : Bytes) (a : Nat) : ringIdx (m.word a) = m.half (a + 2) := by
  unfold ringIdx Bytes.word Bytes.half
  apply BitVec.eq_of_getLsbD_eq
  intro i hi
  have hi' : i < 16 := hi
  simp only [BitVec.getLsbD_setWidth, BitVec.getLsbD_ushiftRight, BitVec.getLsbD_append]
  interval_cases i <;> rfl

theorem ringIdx_publish (w : Word) (u : BitVec 16) : ringIdx ((w &&& 0xffff) ||| u.setWidth 32 <<< 16) = u := by
  unfold ringIdx
  apply BitVec.eq_of_getLsbD_eq
  intro i hi
  have hi' : i < 16 := hi
  simp only [BitVec.getLsbD_setWidth, BitVec.getLsbD_ushiftRight, BitVec.getLsbD_or, BitVec.getLsbD_and,
    BitVec.getLsbD_shiftLeft]
  interval_cases i <;> simp

section Frames

variable {env : VblkEnv} {v v' : VirtioBlk}

/-- Guest RAM changes on `W` only, and of the rest of the device at most the disk, the status and the pending
interrupts. -/
structure VblkFrame (W : Nat → Prop) (v v' : VirtioBlk) : Prop where
  queues : v'.queues = v.queues
  config : v'.config = v.config
  features : v'.deviceFeatures = v.deviceFeatures
  ram : ∀ a, ¬ W a → v'.ram a = v.ram a

theorem VblkFrame.refl (W : Nat → Prop) (v : VirtioBlk) : VblkFrame W v v := ⟨rfl, rfl, rfl, fun _ _ => rfl⟩

theorem VblkFrame.trans {W : Nat → Prop} {v1 v2 v3 : VirtioBlk} (h : VblkFrame W v1 v2) (h' : VblkFrame W v2 v3) :
    VblkFrame W v1 v3 :=
  ⟨h'.queues.trans h.queues, h'.config.trans h.config, h'.features.trans h.features,
    fun a ha => (h'.ram a ha).trans (h.ram a ha)⟩

theorem setFail_frame (W : Nat → Prop) (v : VirtioBlk) : VblkFrame W v v.setFail := by
  unfold VirtioBlk.setFail
  simp only
  split
  · exact ⟨rfl, rfl, rfl, fun _ _ => rfl⟩
  · exact ⟨rfl, rfl, rfl, fun _ _ => rfl⟩

theorem setStatus_ok {addr : BitVec 64} {s : BitVec 8} (h : setStatus env addr s v = .ok v') :
    inside addr.toNat 1 env.memSize = true ∧ v' = { v with ram := v.ram.put addr.toNat s } := by
  obtain ⟨hin, rfl⟩ := ite_ok h
  exact ⟨hin, rfl⟩

/-- The bytes of guest RAM that a request may write: the status byte and the data of a read. -/
def chainWrites (d0 d1 d2 : VirtqDesc) (v : VirtioBlk) (a : Nat) : Prop :=
  a = d2.addr.toNat ∨
    v.ram.word d0.addr.toNat = 0 ∧ d1.addr.toNat ≤ a ∧ a < d1.addr.toNat + d1.len.toNat

theorem setStatus_frame {d0 d1 d2 : VirtqDesc} {w : VirtioBlk} {s : BitVec 8} (h : setStatus env d2.addr s v = .ok v') :
    VblkFrame (chainWrites d0 d1 d2 w) v v' := by
  obtain ⟨-, rfl⟩ := setStatus_ok h
  exact ⟨rfl, rfl, rfl, fun a ha => if_neg fun heq => ha (.inl heq)⟩

theorem handleChain_frame {d0 d1 d2 : VirtqDesc} {r : Option Word} (h : handleChain env d0 d1 d2 v = .ok (r, v')) :
    VblkFrame (chainWrites d0 d1 d2 v) v v' := by
  obtain ⟨⟨type, sector⟩, hheader, h⟩ := bind_ok h
  obtain ⟨-, hfields⟩ := ite_ok hheader
  obtain ⟨rfl, rfl⟩ := Prod.mk.inj hfields
  simp only at h
  split_ifs at h with hcap htype htype1 hro
  · obtain ⟨v1, hs, h⟩ := bind_ok h
    cases h
    exact setStatus_frame hs
  · obtain ⟨v1, hread, h⟩ := bind_ok h
    obtain ⟨v2, hs, h⟩ := bind_ok h
    cases h
    obtain ⟨-, rfl⟩ := ite_ok hread
    refine VblkFrame.trans ?_ (setStatus_frame hs)
    exact ⟨rfl, rfl, rfl, fun a ha => if_neg fun hin => ha (.inr ⟨htype, hin.1, hin.2⟩)⟩
  · obtain ⟨v1, hs, h⟩ := bind_ok h
    cases h
    exact setStatus_frame hs
  · obtain ⟨v1, hwrite, h⟩ := bind_ok h
    obtain ⟨v2, hs, h⟩ := bind_ok h
    cases h
    obtain ⟨-, rfl⟩ := ite_ok hwrite
    refine VblkFrame.trans ?_ (setStatus_frame hs)
    exact ⟨rfl, rfl, rfl, fun _ _ => rfl⟩
  · obtain ⟨v1, hs, h⟩ := bind_ok h
    cases h
    exact setStatus_frame hs

/-- The three descriptors of a chain, where guest memory says they are. -/
def VirtioBlkQueue.chain (queue : VirtioBlkQueue) (m : Bytes) (idx : BitVec 16) : VirtqDesc × VirtqDesc × VirtqDesc :=
  let d0 := m.desc (queue.descOff idx)
  let d1 := m.desc (queue.descOff d0.next)
  (d0, d1, m.desc (queue.descOff d1.next))

/-- The bytes of guest RAM that the request at `idx` may write. -/
def requestWrites (queue : VirtioBlkQueue) (idx : BitVec 16) (v : VirtioBlk) (a : Nat) : Prop :=
  validChain (queue.chain v.ram idx).1 (queue.chain v.ram idx).2.1 (queue.chain v.ram idx).2.2 = true ∧
    chainWrites (queue.chain v.ram idx).1 (queue.chain v.ram idx).2.1 (queue.chain v.ram idx).2.2 v a

/-- **A request** changes guest RAM only where its chain says. -/
theorem handler_frame {queue : VirtioBlkQueue} {idx : BitVec 16} {r : Option Word}
    (h : virtioBlkDescHandler env queue idx v = .ok (r, v')) : VblkFrame (requestWrites queue idx v) v v' := by
  obtain ⟨d0, h0, h⟩ := bind_ok h
  obtain ⟨-, rfl⟩ := ite_ok h0
  obtain ⟨d1, h1, h⟩ := bind_ok h
  obtain ⟨-, rfl⟩ := ite_ok h1
  obtain ⟨d2, h2, h⟩ := bind_ok h
  obtain ⟨-, rfl⟩ := ite_ok h2
  split_ifs at h with hvalid
  · have hframe := handleChain_frame h
    exact ⟨hframe.queues, hframe.config, hframe.features, fun a ha => hframe.ram a fun hw => ha ⟨hvalid, hw⟩⟩
  · cases h
    exact setFail_frame _ v

/-- The request that the available ring has at `last_avail`. -/
def VirtioBlk.nextIdx (index : Fin 2) (v : VirtioBlk) : BitVec 16 :=
  let queue := v.queues index
  let slot := queue.lastAvail.toNat % queue.queueNum.toNat
  bufferIdx (v.ram.word (4 * (queue.availWord slot).toNat)) slot

/-- The used element of the index `u`: its first word. -/
def VirtioBlkQueue.usedElem (queue : VirtioBlkQueue) (u : BitVec 16) : Word :=
  queue.usedWord (u.toNat % queue.queueNum.toNat)

/-- A used element is written and the request is consumed. -/
def VirtioBlk.complete (index : Fin 2) (u idx : BitVec 16) (len : Word) (queue : VirtioBlkQueue) (v : VirtioBlk) :
    VirtioBlk :=
  { v with ram := (v.ram.putWord (4 * (queue.usedElem u).toNat) (idx.setWidth 32)).putWord
             (4 * (queue.usedElem u + 1).toNat) len }.setQueue index { queue with lastAvail := queue.lastAvail + 1 }

/-- **A turn of the loop**: the request is handled, and it is consumed unless it has failed. -/
theorem notifyTurn_cases {index : Fin 2} {u : BitVec 16} {ok : Bool} (h : notifyTurn env index u v = .ok (ok, v')) :
    ∃ r v1, virtioBlkDescHandler env (v.queues index) (v.nextIdx index) v = .ok (r, v1) ∧
      ((ok = false ∧ r = none ∧ v' = v1.setFail) ∨
        ∃ len, ok = true ∧ r = some len ∧ v' = v1.complete index u (v.nextIdx index) len (v.queues index)) := by
  obtain ⟨slot, hslot, h⟩ := bind_ok h
  have hnum : ¬ (v.queues index).queueNum = 0 := by
    intro hzero
    rw [VirtioBlkQueue.slot, if_pos hzero] at hslot
    cases hslot
  have hslots : ∀ idx, (v.queues index).slot idx = .ok (idx.toNat % (v.queues index).queueNum.toNat) :=
    fun idx => if_neg hnum
  rw [hslots] at hslot
  cases hslot
  obtain ⟨w, hw, h⟩ := bind_ok h
  obtain ⟨-, rfl⟩ := ite_ok hw
  obtain ⟨⟨r, v1⟩, hhandler, h⟩ := bind_ok h
  refine ⟨r, v1, hhandler, ?_⟩
  cases r with
  | none =>
    cases h
    exact .inl ⟨rfl, rfl, rfl⟩
  | some len =>
    obtain ⟨s, hs, h⟩ := bind_ok h
    rw [hslots] at hs
    cases hs
    obtain ⟨v2, h2, h⟩ := bind_ok h
    obtain ⟨-, rfl⟩ := ite_ok h2
    obtain ⟨v3, h3, h⟩ := bind_ok h
    obtain ⟨-, rfl⟩ := ite_ok h3
    cases h
    exact .inr ⟨len, rfl, rfl, rfl⟩

end Frames

/-! ## Batches -/

section Batch

variable {env : VblkEnv} {index : Fin 2} {newAvail : BitVec 16} {v v' : VirtioBlk}

/-- The position of the first request that fails in the rest of a batch. -/
def failsAt (env : VblkEnv) (index : Fin 2) (newAvail : BitVec 16) : Nat → BitVec 16 → VirtioBlk → Option Nat
  | 0, _, _ => none
  | n + 1, u, v =>
    if (v.queues index).lastAvail = newAvail then none
    else match notifyTurn env index u v with
      | .ok (true, v) => (failsAt env index newAvail n (u + 1) v).map (· + 1)
      | .ok (false, _) => some 0
      | .error _ => none

def VirtioBlk.usedIdxOff (index : Fin 2) (v : VirtioBlk) : Nat := 4 * (v.queues index).queueUsed.toNat + 2

def VirtioBlk.usedIdx (index : Fin 2) (v : VirtioBlk) : BitVec 16 := v.ram.half (v.usedIdxOff index)

/-- The bytes that a turn may write: those of the request, and the used element. -/
def turnWrites (index : Fin 2) (u : BitVec 16) (v : VirtioBlk) (a : Nat) : Prop :=
  requestWrites (v.queues index) (v.nextIdx index) v a ∨
    (4 * ((v.queues index).usedElem u).toNat ≤ a ∧ a < 4 * ((v.queues index).usedElem u).toNat + 4) ∨
    4 * ((v.queues index).usedElem u + 1).toNat ≤ a ∧ a < 4 * ((v.queues index).usedElem u + 1).toNat + 4

/-- No request of the rest of a batch writes the index of the used ring. -/
def Apart (env : VblkEnv) (index : Fin 2) (newAvail : BitVec 16) : Nat → BitVec 16 → VirtioBlk → Prop
  | 0, _, _ => True
  | n + 1, u, v =>
    if (v.queues index).lastAvail = newAvail then True
    else ¬ turnWrites index u v (v.usedIdxOff index) ∧ ¬ turnWrites index u v (v.usedIdxOff index + 1) ∧
      ∀ v1, notifyTurn env index u v = .ok (true, v1) → Apart env index newAvail n (u + 1) v1

/-- `k` requests are consumed. -/
def VirtioBlkQueue.advance (q : VirtioBlkQueue) (k : BitVec 16) : VirtioBlkQueue :=
  { q with lastAvail := q.lastAvail + k }

theorem VirtioBlkQueue.advance_zero (q : VirtioBlkQueue) : q.advance 0 = q := by
  unfold VirtioBlkQueue.advance
  rw [show q.lastAvail + 0 = q.lastAvail from BitVec.add_zero _]

theorem VirtioBlkQueue.advance_advance (q : VirtioBlkQueue) (j k : BitVec 16) :
    (q.advance j).advance k = q.advance (j + k) := by
  unfold VirtioBlkQueue.advance
  simp only [BitVec.add_assoc]

theorem notifyTurn_frame {u : BitVec 16} {ok : Bool} (h : notifyTurn env index u v = .ok (ok, v')) :
    v'.queues index = (if ok then (v.queues index).advance 1 else v.queues index) ∧
      ∀ a, ¬ turnWrites index u v a → v'.ram a = v.ram a := by
  obtain ⟨r, v1, hhandler, ⟨rfl, rfl, rfl⟩ | ⟨len, rfl, rfl, rfl⟩⟩ := notifyTurn_cases h
  · have hframe := (handler_frame hhandler).trans (setFail_frame _ v1)
    refine ⟨by rw [hframe.queues]; rfl, fun a ha => hframe.ram a fun hw => ha (.inl hw)⟩
  · have hframe := handler_frame hhandler
    refine ⟨Function.update_self .., fun a ha => ?_⟩
    rw [turnWrites, not_or, not_or] at ha
    obtain ⟨hreq, hid, hlen⟩ := ha
    change Bytes.putWord (Bytes.putWord v1.ram _ _) _ _ a = _
    rw [Bytes.putWord_of_not_mem _ hlen, Bytes.putWord_of_not_mem _ hid]
    exact hframe.ram a hreq

/-- The index of the used ring is kept by a turn that does not write it. -/
theorem usedIdx_turn {u : BitVec 16} {ok : Bool} (h : notifyTurn env index u v = .ok (ok, v'))
    (h0 : ¬ turnWrites index u v (v.usedIdxOff index)) (h1 : ¬ turnWrites index u v (v.usedIdxOff index + 1)) :
    v'.usedIdx index = v.usedIdx index := by
  obtain ⟨hq, hram⟩ := notifyTurn_frame h
  have hoff : v'.usedIdxOff index = v.usedIdxOff index := by
    unfold VirtioBlk.usedIdxOff
    rw [hq]
    split <;> rfl
  unfold VirtioBlk.usedIdx Bytes.half
  rw [hoff, hram _ h0, hram _ h1]

/-- A batch that is processed to its end: both indices have advanced alike. -/
theorem notifyLoop_ok {n : Nat} {u u' : BitVec 16} (h : notifyLoop env index newAvail n u v = .ok (some u', v')) :
    failsAt env index newAvail n u v = none ∧ v'.queues index = (v.queues index).advance (u' - u) := by
  induction n generalizing u v with
  | zero =>
    cases h
    exact ⟨rfl, by rw [BitVec.sub_self]; exact (VirtioBlkQueue.advance_zero _).symm⟩
  | succ n ih =>
    unfold notifyLoop at h
    rw [failsAt]
    split_ifs at h with hend
    · cases h
      exact ⟨if_pos hend, by rw [BitVec.sub_self]; exact (VirtioBlkQueue.advance_zero _).symm⟩
    · rw [if_neg hend]
      obtain ⟨⟨ok, v1⟩, hturn, h⟩ := bind_ok h
      cases ok with
      | false => cases h
      | true =>
        obtain ⟨hfails, hq⟩ := ih h
        rw [hturn]
        refine ⟨congrArg (Option.map (· + 1)) hfails, ?_⟩
        rw [hq, (notifyTurn_frame hturn).1, if_pos rfl, VirtioBlkQueue.advance_advance]
        congr 1
        ring

/-- A batch in which the request at position `k` fails: `k` requests are consumed. -/
theorem notifyLoop_failed {n : Nat} {u : BitVec 16} (h : notifyLoop env index newAvail n u v = .ok (none, v')) :
    ∃ k < n, failsAt env index newAvail n u v = some k ∧
      v'.queues index = (v.queues index).advance (BitVec.ofNat 16 k) ∧
      (Apart env index newAvail n u v → v'.usedIdx index = v.usedIdx index) := by
  induction n generalizing u v with
  | zero => cases h
  | succ n ih =>
    unfold notifyLoop at h
    rw [failsAt, Apart]
    split_ifs at h with hend
    · cases h
    · rw [if_neg hend, if_neg hend]
      obtain ⟨⟨ok, v1⟩, hturn, h⟩ := bind_ok h
      cases ok with
      | false =>
        cases h
        rw [hturn]
        refine ⟨0, by omega, rfl, ?_, fun hap => usedIdx_turn hturn hap.1 hap.2.1⟩
        rw [(notifyTurn_frame hturn).1]
        exact (VirtioBlkQueue.advance_zero _).symm
      | true =>
        obtain ⟨k, hk, hfails, hq, hidx⟩ := ih h
        rw [hturn]
        refine ⟨k + 1, by omega, congrArg (Option.map (· + 1)) hfails, ?_, fun hap => ?_⟩
        · rw [hq, (notifyTurn_frame hturn).1, if_pos rfl, VirtioBlkQueue.advance_advance]
          congr 1
          rw [BitVec.ofNat_add, BitVec.add_comm]
          rfl
        · rw [hidx (hap.2.2 v1 rfl), usedIdx_turn hturn hap.1 hap.2.1]

/-! ## The whole notification -/

def VirtioBlk.availIdx (index : Fin 2) (v : VirtioBlk) : BitVec 16 :=
  ringIdx (v.ram.word (4 * (v.queues index).queueAvail.toNat))

def VirtioBlk.processes (index : Fin 2) (v : VirtioBlk) : Bool :=
  !v.needsReset && (v.driverOk && (v.queues index).ready) && !sizeCheckFails (v.queues index) (v.availIdx index) &&
    (v.queues index).lastAvail ≠ v.availIdx index

def VirtioBlk.batchSize (index : Fin 2) (v : VirtioBlk) : Nat :=
  (v.availIdx index - (v.queues index).lastAvail).toNat

theorem publishUsed_ok {queue : VirtioBlkQueue} {u : BitVec 16} (h : publishUsed env queue u v = .ok v') :
    v'.queues = v.queues ∧ v'.ram.half (4 * queue.queueUsed.toNat + 2) = u := by
  obtain ⟨w, hw, h⟩ := bind_ok h
  obtain ⟨v1, h1, h⟩ := bind_ok h
  obtain ⟨-, rfl⟩ := ite_ok h1
  obtain ⟨a, ha, h⟩ := bind_ok h
  have hidx : Bytes.half (Bytes.putWord v.ram (4 * queue.queueUsed.toNat)
      ((w &&& 0xffff) ||| u.setWidth 32 <<< 16)) (4 * queue.queueUsed.toNat + 2) = u := by
    rw [← ringIdx_word, Bytes.word_putWord, ringIdx_publish]
  have hv' := Except.ok.inj h
  split_ifs at hv'
  · subst hv'
    exact ⟨rfl, hidx⟩
  · subst hv'
    exact ⟨rfl, hidx⟩

/-- **A notification** leaves the rings alone, or processes the batch and publishes the index. -/
theorem notify_cases (h : virtioQueueNotifyHandler env index v = .ok v') :
    (v.processes index = false ∧ VblkFrame (fun _ => False) v v') ∨
      v.processes index = true ∧ ∃ r v1,
        notifyLoop env index (v.availIdx index) (v.batchSize index) (v.usedIdx index) v = .ok (r, v1) ∧
          (r = none ∧ v' = v1 ∨ ∃ u, r = some u ∧ publishUsed env (v.queues index) u v1 = .ok v') := by
  unfold virtioQueueNotifyHandler at h
  unfold VirtioBlk.processes
  simp only at h
  split_ifs at h with hreset hready
  · cases h
    exact .inl ⟨by rw [hreset]; rfl, .refl _ v⟩
  · cases h
    rw [Bool.not_eq_true'] at hready
    exact .inl ⟨by rw [hready, Bool.and_false]; rfl, setFail_frame _ v⟩
  obtain ⟨w, hw, h⟩ := bind_ok h
  obtain ⟨-, rfl⟩ := ite_ok hw
  change (if sizeCheckFails (v.queues index) (v.availIdx index) = true then _ else _ : VblkM VirtioBlk) = _ at h
  split_ifs at h with hsize hmore
  · cases h
    exact .inl ⟨by rw [hsize, Bool.not_true, Bool.and_false]; rfl, setFail_frame _ v⟩
  · cases h
    have hmore' : (v.queues index).lastAvail = v.availIdx index := hmore
    exact .inl ⟨by simp [hmore'], .refl _ v⟩
  obtain ⟨w, hw, h⟩ := bind_ok h
  obtain ⟨-, rfl⟩ := ite_ok hw
  have hused : ringIdx (v.ram.word (4 * (v.queues index).queueUsed.toNat)) = v.usedIdx index := ringIdx_word ..
  rw [hused] at h
  obtain ⟨⟨r, v1⟩, hloop, h⟩ := bind_ok h
  have hmore' : (v.queues index).lastAvail ≠ v.availIdx index := hmore
  refine .inr ⟨?_, r, v1, hloop, ?_⟩
  · have hready' : (v.driverOk && (v.queues index).ready) = true := by simpa using hready
    rw [hready', Bool.eq_false_iff.mpr hreset, Bool.eq_false_iff.mpr hsize]
    simpa using hmore'
  · cases r with
    | none =>
      cases h
      exact .inl ⟨rfl, rfl⟩
    | some u => exact .inr ⟨u, rfl, h⟩

/-- The position of the request of the batch that fails; `none` if there is none or nothing is processed. -/
def batchFailure (env : VblkEnv) (index : Fin 2) (v : VirtioBlk) : Option Nat :=
  if v.processes index then failsAt env index (v.availIdx index) (v.batchSize index) (v.usedIdx index) v else none

/-- No request of the batch writes the index of the used ring. -/
def BatchApart (env : VblkEnv) (index : Fin 2) (v : VirtioBlk) : Prop :=
  Apart env index (v.availIdx index) (v.batchSize index) (v.usedIdx index) v

/-- The two indices have advanced by the same amount. -/
def UsedAdvances (index : Fin 2) (v v' : VirtioBlk) : Prop :=
  v'.usedIdx index - v.usedIdx index = (v'.queues index).lastAvail - (v.queues index).lastAvail

/-- Where only a failure stops the loop, the indices have advanced alike exactly if nothing was consumed. -/
theorem usedAdvances_failed {k : Nat} (hk : k < 2 ^ 16)
    (hq : v'.queues index = (v.queues index).advance (BitVec.ofNat 16 k))
    (hidx : v'.usedIdx index = v.usedIdx index) : UsedAdvances index v v' ↔ k = 0 := by
  have hnat : (BitVec.ofNat 16 k).toNat = k := by
    rw [BitVec.toNat_ofNat]
    omega
  unfold UsedAdvances
  rw [hidx, hq, BitVec.sub_self]
  change 0#16 = (v.queues index).lastAvail + BitVec.ofNat 16 k - (v.queues index).lastAvail ↔ _
  rw [add_sub_cancel_left]
  constructor
  · intro h
    have hz := congrArg BitVec.toNat h
    rw [hnat] at hz
    exact hz.symm
  · rintro rfl
    rfl

end Batch

/-! ## A batch whose second request fails -/

/-- The state after a turn of the loop, if that ends. -/
def afterTurn (index : Fin 2) (u : BitVec 16) (v : VirtioBlk) : VirtioBlk :=
  ((notifyTurn smallEnv index u v).toOption.getD (false, v)).2

theorem twoPending_apart : BatchApart smallEnv 0 twoPending := by
  have hsize : twoPending.availIdx 0 = 2 ∧ twoPending.batchSize 0 = 2 ∧ twoPending.usedIdx 0 = 0 := by decide +kernel
  have hfirst : (twoPending.queues 0).lastAvail ≠ 2 ∧ twoPending.usedIdxOff 0 = 514 := by decide +kernel
  have hsecond : ((afterTurn 0 0 twoPending).queues 0).lastAvail ≠ 2 ∧
      (afterTurn 0 0 twoPending).usedIdxOff 0 = 514 := by decide +kernel
  have hwrites : (¬ turnWrites 0 0 twoPending 514 ∧ ¬ turnWrites 0 0 twoPending 515) ∧
      ¬ turnWrites 0 1 (afterTurn 0 0 twoPending) 514 ∧ ¬ turnWrites 0 1 (afterTurn 0 0 twoPending) 515 := by
    unfold turnWrites requestWrites chainWrites
    decide +kernel
  unfold BatchApart
  rw [hsize.1, hsize.2.1, hsize.2.2]
  simp only [Apart, if_neg hfirst.1, hfirst.2]
  refine ⟨hwrites.1.1, hwrites.1.2, fun v hv => ?_⟩
  obtain rfl : afterTurn 0 0 twoPending = v := by
    unfold afterTurn
    rw [hv]
    rfl
  rw [if_neg hsecond.1, hsecond.2]
  exact ⟨hwrites.2.1, hwrites.2.2, fun _ _ => trivial⟩

end Rv32emu
