import Rv32emu.VirtioRange

/-!
# The size check of the virtio block device

The test of `avail.idx` in `virtio_queue_notify_handler`, which is made in `int`, and the division by `queue_num`
that it guards.

* `Avoids` : an operation that does not end with a given fault;
* `VirtioBlk.attempts` : the requests a notification attempts;
* `sizeCheck_exact_iff` : the test is the comparison modulo `2 ^ 16` unless the index has moved backwards;
* `VirtioBlk.Divides` : a queue without a size and an index that has moved backwards; `notify_divByZero_iff`;
* `vblkRun_divByZero_iff` : a run divides by zero exactly if it notifies such a queue.
-/

namespace Rv32emu

/-! ## Operations without a given fault -/

def Avoids (e : VblkFault) {α : Type} (x : VblkM α) : Prop := x ≠ .error e

section Avoids

variable {α β : Type} {e : VblkFault}

theorem avoids_ok (a : α) : Avoids e (.ok a : VblkM α) := fun h => nomatch h

theorem avoids_pure (a : α) : Avoids e (pure a : VblkM α) := fun h => nomatch h

theorem avoids_bind {x : VblkM α} {f : α → VblkM β} :
    Avoids e (x >>= f) ↔ Avoids e x ∧ ∀ a, x = .ok a → Avoids e (f a) := by
  cases x with
  | error e' =>
    refine ⟨fun h => ⟨fun he => h ?_, fun a ha => (nomatch ha)⟩, fun h he => h.1 ?_⟩
    · cases he
      rfl
    · cases he
      rfl
  | ok a =>
    refine ⟨fun h => ⟨avoids_ok a, fun b hb => ?_⟩, fun h => h.2 a rfl⟩
    cases hb
    exact h

theorem Avoids.bind {x : VblkM α} {f : α → VblkM β} (hx : Avoids e x) (hf : ∀ a, Avoids e (f a)) :
    Avoids e (x >>= f) := avoids_bind.mpr ⟨hx, fun a _ => hf a⟩

theorem avoids_check (he : e ≠ .outside) {c : Bool} {a : α} :
    Avoids e (if c then .ok a else .error .outside : VblkM α) := by
  cases c with
  | false =>
    intro h
    cases h
    exact he rfl
  | true => exact avoids_ok a

end Avoids

section Requests

variable {env : VblkEnv} {e : VblkFault} {v : VirtioBlk} {index : Fin 2}

theorem setStatus_avoids (he : e ≠ .outside) (addr : BitVec 64) (s : BitVec 8) : Avoids e (setStatus env addr s v) :=
  avoids_check he

theorem handleChain_avoids (he : e ≠ .outside) (d0 d1 d2 : VirtqDesc) : Avoids e (handleChain env d0 d1 d2 v) := by
  refine .bind (avoids_check he) fun header => ?_
  simp only
  have hstatus : ∀ (w : VirtioBlk) (s : BitVec 8) (r : Option Word),
      Avoids e (do return (r, ← setStatus env d2.addr s w)) := fun w s r =>
    .bind (setStatus_avoids he d2.addr s) fun _ => avoids_pure _
  split_ifs
  · exact hstatus v 1 none
  · exact .bind (avoids_check he) fun w => hstatus w 0 (some d1.len)
  · exact hstatus v 1 none
  · exact .bind (avoids_check he) fun w => hstatus w 0 (some d1.len)
  · exact hstatus v 2 none

/-- The accesses of a request are the only ones that can fail. -/
theorem handler_avoids (he : e ≠ .outside) (queue : VirtioBlkQueue) (idx : BitVec 16) :
    Avoids e (virtioBlkDescHandler env queue idx v) := by
  refine .bind (avoids_check he) fun d0 => .bind (avoids_check he) fun d1 => .bind (avoids_check he) fun d2 => ?_
  split_ifs
  · exact handleChain_avoids he d0 d1 d2
  · exact avoids_pure _

theorem slot_avoids {queue : VirtioBlkQueue} (he : e = .divByZero → queue.queueNum ≠ 0) (idx : BitVec 16) :
    Avoids e (queue.slot idx) := by
  unfold VirtioBlkQueue.slot
  split_ifs with hzero
  · intro h
    cases h
    exact he rfl hzero
  · exact avoids_ok _

/-- A turn of the loop divides by zero only if the queue has no size. -/
theorem notifyTurn_avoids (he : e ≠ .outside) (hnum : e = .divByZero → (v.queues index).queueNum ≠ 0)
    (u : BitVec 16) : Avoids e (notifyTurn env index u v) := by
  refine .bind (slot_avoids hnum _) fun slot => .bind (avoids_check he) fun w =>
    .bind (handler_avoids he _ _) fun ⟨r, v1⟩ => ?_
  cases r with
  | none => exact avoids_pure _
  | some len =>
    exact .bind (slot_avoids hnum u) fun s => .bind (avoids_check he) fun v2 => .bind (avoids_check he) fun v3 =>
      avoids_pure _

theorem QueuesAdvance.queueNum {v v' : VirtioBlk} (h : QueuesAdvance v v') (i : Fin 2) :
    (v'.queues i).queueNum = (v.queues i).queueNum := by
  obtain ⟨k, hk⟩ := h i
  rw [hk]
  rfl

theorem notifyLoop_avoids (he : e ≠ .outside) {newAvail : BitVec 16} {n : Nat} {u : BitVec 16}
    (hnum : e = .divByZero → (v.queues index).queueNum ≠ 0) : Avoids e (notifyLoop env index newAvail n u v) := by
  induction n generalizing u v with
  | zero => exact avoids_pure _
  | succ n ih =>
    unfold notifyLoop
    split_ifs
    · exact avoids_pure _
    · refine avoids_bind.mpr ⟨notifyTurn_avoids he hnum u, ?_⟩
      rintro ⟨ok, v1⟩ hturn
      cases ok with
      | false => exact avoids_pure _
      | true =>
        refine ih fun hdiv => ?_
        rw [(notifyTurn_queues hturn).queueNum]
        exact hnum hdiv

theorem publishUsed_avoids (he : e ≠ .outside) (queue : VirtioBlkQueue) (u : BitVec 16) :
    Avoids e (publishUsed env queue u v) :=
  .bind (avoids_check he) fun _ => .bind (avoids_check he) fun _ => .bind (avoids_check he) fun _ => avoids_pure _

end Requests

/-! ## The size check -/

/-- The handler gets as far as the size check of the queue. -/
structure VirtioBlk.Live (index : Fin 2) (v : VirtioBlk) : Prop where
  needsReset : v.needsReset = false
  driverOk : v.driverOk = true
  ready : (v.queues index).ready = true

/-- The number of turns `notifyLoop` begins. -/
def notifyCount (env : VblkEnv) (index : Fin 2) (newAvail : BitVec 16) : Nat → BitVec 16 → VirtioBlk → Nat
  | 0, _, _ => 0
  | n + 1, newUsed, v =>
    if (v.queues index).lastAvail = newAvail then 0
    else match notifyTurn env index newUsed v with
      | .ok (true, v) => notifyCount env index newAvail n (newUsed + 1) v + 1
      | _ => 1

/-- The distance from `last_avail` to `avail.idx`, modulo `2 ^ 16`. -/
def VirtioBlkQueue.distance (q : VirtioBlkQueue) (newAvail : BitVec 16) : Nat := (newAvail - q.lastAvail).toNat

/-- The requests that the handler attempts when it finds `newAvail` in the available ring. -/
def VirtioBlk.attempts (env : VblkEnv) (index : Fin 2) (newAvail : BitVec 16) (v : VirtioBlk) : Nat :=
  let queue := v.queues index
  if sizeCheckFails queue newAvail = true ∨ queue.lastAvail = newAvail then 0
  else match ramWord env queue.queueUsed v with
    | .ok w => notifyCount env index newAvail (queue.distance newAvail) (ringIdx w) v
    | .error _ => 0

/-- The rest of the handler, behind its checks. -/
def notifyBatch (env : VblkEnv) (index : Fin 2) (newAvail : BitVec 16) (v : VirtioBlk) : VblkM VirtioBlk := do
  let queue := v.queues index
  let newUsed := ringIdx (← ramWord env queue.queueUsed v)
  match ← notifyLoop env index newAvail (queue.distance newAvail) newUsed v with
  | (none, v) => return v
  | (some newUsed, v) => publishUsed env queue newUsed v

/-- The device needs a reset afterwards, and no request was attempted. -/
def Rejects (env : VblkEnv) (index : Fin 2) (newAvail : BitVec 16) (v : VirtioBlk) : Prop :=
  (∃ v', virtioQueueNotifyHandler env index v = .ok v' ∧ v'.needsReset = true) ∧ v.attempts env index newAvail = 0

/-- The index has not moved backwards, or not by more than the size of the queue modulo `2 ^ 16`; and `queue_num`
loses nothing in 16 bits. -/
def VirtioBlkQueue.CheckExact (q : VirtioBlkQueue) (newAvail : BitVec 16) : Prop :=
  if q.lastAvail ≤ newAvail then q.queueNum.toNat < 2 ^ 16 ∨ q.distance newAvail ≤ q.queueNum.toNat % 2 ^ 16
  else q.distance newAvail ≤ q.queueNum.toNat

section SizeCheck

variable {env : VblkEnv} {v : VirtioBlk} {index : Fin 2} {w : Word} {newAvail : BitVec 16}

/-- In `int` an index that has moved backwards passes. -/
theorem sizeCheckFails_iff (q : VirtioBlkQueue) (newAvail : BitVec 16) :
    sizeCheckFails q newAvail = true ↔ q.lastAvail ≤ newAvail ∧ q.queueNum.toNat % 2 ^ 16 < q.distance newAvail := by
  unfold sizeCheckFails VirtioBlkQueue.distance
  rw [decide_eq_true_eq, BitVec.toNat_setWidth, BitVec.toNat_sub, BitVec.le_def]
  have hnew := newAvail.isLt
  have hlast := q.lastAvail.isLt
  omega

theorem setFail_needsReset (v : VirtioBlk) : v.setFail.needsReset = true := by
  have hbit : ∀ status : Word, (status ||| 64) &&& 64 ≠ 0 := by
    intro status h
    have h6 := congrArg (fun w : Word => w.getLsbD 6) h
    simp at h6
  unfold VirtioBlk.setFail VirtioBlk.needsReset
  simp only
  split
  · exact decide_eq_true (hbit v.status)
  · exact decide_eq_true (hbit v.status)

theorem notify_live (hlive : v.Live index) (havail : ramWord env (v.queues index).queueAvail v = .ok w) :
    virtioQueueNotifyHandler env index v =
      if sizeCheckFails (v.queues index) (ringIdx w) = true then .ok v.setFail
      else if (v.queues index).lastAvail = ringIdx w then .ok v
      else notifyBatch env index (ringIdx w) v := by
  unfold virtioQueueNotifyHandler
  simp only [hlive.needsReset, hlive.driverOk, hlive.ready, Bool.false_eq_true, if_false, Bool.and_self,
    Bool.not_true]
  rw [havail]
  rfl

theorem notifyCount_le (n : Nat) (u : BitVec 16) (v : VirtioBlk) : notifyCount env index newAvail n u v ≤ n := by
  induction n generalizing u v with
  | zero => exact Nat.le_refl 0
  | succ n ih =>
    unfold notifyCount
    split_ifs
    · exact Nat.zero_le _
    · split
      · exact Nat.succ_le_succ (ih ..)
      · omega

theorem notifyCount_pos {n : Nat} (hn : 0 < n) (hne : (v.queues index).lastAvail ≠ newAvail) (u : BitVec 16) :
    0 < notifyCount env index newAvail n u v := by
  cases n with
  | zero => exact absurd hn (Nat.lt_irrefl 0)
  | succ n =>
    unfold notifyCount
    rw [if_neg hne]
    split
    · exact Nat.succ_pos _
    · exact Nat.one_pos

/-- **At most as many requests as the index has advanced.** -/
theorem attempts_le (env : VblkEnv) (index : Fin 2) (newAvail : BitVec 16) (v : VirtioBlk) :
    v.attempts env index newAvail ≤ (v.queues index).distance newAvail := by
  unfold VirtioBlk.attempts
  simp only
  split_ifs
  · exact Nat.zero_le _
  · split
    · exact notifyCount_le ..
    · exact Nat.zero_le _

theorem distance_pos {q : VirtioBlkQueue} (hne : q.lastAvail ≠ newAvail) : 0 < q.distance newAvail := by
  unfold VirtioBlkQueue.distance
  have hlast := q.lastAvail.isLt
  have hnew := newAvail.isLt
  have hne' : q.lastAvail.toNat ≠ newAvail.toNat := fun h => hne (BitVec.eq_of_toNat_eq h)
  rw [BitVec.toNat_sub]
  omega

/-- Nothing but the size check rejects a notification. -/
theorem rejects_iff (hlive : v.Live index) (havail : ramWord env (v.queues index).queueAvail v = .ok w) :
    Rejects env index (ringIdx w) v ↔ sizeCheckFails (v.queues index) (ringIdx w) = true := by
  have hhandler := notify_live hlive havail
  constructor
  · rintro ⟨⟨v', hok, hreset⟩, hnone⟩
    by_contra hpass
    rw [hhandler, if_neg hpass] at hok
    by_cases hsame : (v.queues index).lastAvail = ringIdx w
    · rw [if_pos hsame] at hok
      cases hok
      rw [hlive.needsReset] at hreset
      cases hreset
    · rw [if_neg hsame] at hok
      obtain ⟨used, hused, -⟩ := bind_ok hok
      have hattempts : v.attempts env index (ringIdx w) =
          notifyCount env index (ringIdx w) ((v.queues index).distance (ringIdx w)) (ringIdx used) v := by
        unfold VirtioBlk.attempts
        simp only
        rw [if_neg (not_or.mpr ⟨hpass, hsame⟩), hused]
      have hpos : 0 < notifyCount env index (ringIdx w) ((v.queues index).distance (ringIdx w)) (ringIdx used) v :=
        notifyCount_pos (distance_pos hsame) hsame (ringIdx used)
      omega
  · intro hfail
    rw [if_pos hfail] at hhandler
    exact ⟨⟨v.setFail, hhandler, setFail_needsReset v⟩, if_pos (.inl hfail)⟩

end SizeCheck

/-- **The size check.** It is the comparison modulo `2 ^ 16` exactly where the index has not moved backwards past
what the queue holds. -/
theorem sizeCheck_exact_iff {env : VblkEnv} {v : VirtioBlk} {index : Fin 2} {w : Word} (hlive : v.Live index)
    (havail : ramWord env (v.queues index).queueAvail v = .ok w) :
    ((Rejects env index (ringIdx w) v ↔ (v.queues index).queueNum.toNat < (v.queues index).distance (ringIdx w)) ∧
      (¬ (v.queues index).queueNum.toNat < (v.queues index).distance (ringIdx w) →
        v.attempts env index (ringIdx w) ≤ (v.queues index).distance (ringIdx w))) ↔
      (v.queues index).CheckExact (ringIdx w) := by
  rw [and_iff_left fun _ => attempts_le env index (ringIdx w) v, rejects_iff hlive havail, sizeCheckFails_iff]
  unfold VirtioBlkQueue.CheckExact
  have hdist : (v.queues index).distance (ringIdx w) < 2 ^ 16 := BitVec.isLt _
  split_ifs with hle
  · rw [and_iff_right hle]
    omega
  · rw [iff_false_left (not_and_of_not_left _ hle), Nat.not_lt]

theorem sizeCheck_exact_pending :
    (Rejects smallEnv 0 2 twoPending ↔ 4 < 2) ∧ (¬ 4 < 2 → twoPending.attempts smallEnv 0 2 ≤ 2) :=
  have hlive : twoPending.Live 0 := ⟨rfl, rfl, rfl⟩
  have havail : ramWord smallEnv (twoPending.queues 0).queueAvail twoPending = .ok 0x00020000 := by decide +kernel
  (sizeCheck_exact_iff hlive havail).mpr (by unfold VirtioBlkQueue.CheckExact; decide +kernel)

/-- The driver has set `avail.idx` to 3 before it sets up the queue, and sets it to 2 before it notifies. -/
def backwards : List VblkOp := .memory (ramOf [(256, 0x00030000)]) :: vblkSetup ++ [.memory twoRequests]

/-- The distance is 65535, and the device goes on with a queue of four entries. -/
theorem sizeCheck_passes_backwards :
    ∃ v, vblkRun smallEnv backwards vblkReset = .ok v ∧ v.Live 0 ∧
      ramWord smallEnv (v.queues 0).queueAvail v = .ok 0x00020000 ∧
      (v.queues 0).queueNum.toNat < (v.queues 0).distance (ringIdx 0x00020000) ∧
      ¬ Rejects smallEnv 0 (ringIdx 0x00020000) v := by
  have hrun : (vblkRun smallEnv backwards vblkReset).map (fun v => (v.queues 0, v.status, v.ram.word 256)) =
      .ok ({ queueNum := 4, queueAvail := 64, queueUsed := 128, lastAvail := 3, ready := true }, 4, 0x00020000) := by
    decide +kernel
  obtain ⟨v, hv, hfields⟩ := map_ok hrun
  simp only [Prod.mk.injEq] at hfields
  obtain ⟨hqueue, hstatus, hword⟩ := hfields
  have hlive : v.Live 0 := by
    refine ⟨?_, ?_, by rw [hqueue]⟩
    · unfold VirtioBlk.needsReset
      rw [hstatus]
      rfl
    · unfold VirtioBlk.driverOk
      rw [hstatus]
      rfl
  have havail : ramWord smallEnv (v.queues 0).queueAvail v = .ok 0x00020000 := by
    rw [hqueue, ← hword]
    rfl
  refine ⟨v, hv, hlive, havail, ?_, fun hrejects => ?_⟩
  · rw [hqueue]
    decide
  · rw [rejects_iff hlive havail, hqueue] at hrejects
    exact absurd hrejects (by decide)

/-! ## The division by `queue_num` -/

/-- A queue without a size, whose index has moved backwards; both rings can be read. -/
structure VirtioBlk.Divides (env : VblkEnv) (index : Fin 2) (v : VirtioBlk) : Prop where
  live : v.Live index
  queueNum : (v.queues index).queueNum = 0
  avail : ∃ w, ramWord env (v.queues index).queueAvail v = .ok w ∧ ringIdx w < (v.queues index).lastAvail
  used : ∃ w, ramWord env (v.queues index).queueUsed v = .ok w

section Division

variable {env : VblkEnv} {v : VirtioBlk} {index : Fin 2}

theorem notifyLoop_divides {newAvail : BitVec 16} {n : Nat} (hn : 0 < n) (hne : (v.queues index).lastAvail ≠ newAvail)
    (hzero : (v.queues index).queueNum = 0) (u : BitVec 16) :
    notifyLoop env index newAvail n u v = .error .divByZero := by
  cases n with
  | zero => exact absurd hn (Nat.lt_irrefl 0)
  | succ n =>
    have hslot : (v.queues index).slot (v.queues index).lastAvail = .error .divByZero := if_pos hzero
    have hturn : notifyTurn env index u v = .error .divByZero := by
      unfold notifyTurn
      simp only
      rw [hslot]
      rfl
    unfold notifyLoop
    rw [if_neg hne, hturn]
    rfl

theorem notifyBatch_avoids {e : VblkFault} (he : e ≠ .outside)
    (hnum : e = .divByZero → (v.queues index).queueNum ≠ 0) (newAvail : BitVec 16) :
    Avoids e (notifyBatch env index newAvail v) := by
  refine .bind (avoids_check he) fun used => .bind (notifyLoop_avoids he hnum) fun ⟨r, v1⟩ => ?_
  cases r with
  | none => exact avoids_pure _
  | some u => exact publishUsed_avoids he _ u

/-- A notification is checked before the queue is looked at. -/
theorem notify_not_live (h : ¬ v.Live index) :
    virtioQueueNotifyHandler env index v = .ok v ∨ virtioQueueNotifyHandler env index v = .ok v.setFail := by
  unfold virtioQueueNotifyHandler
  simp only
  split_ifs with hreset hready
  · exact .inl rfl
  · exact .inr rfl
  · simp only [Bool.not_eq_true', Bool.not_eq_false, Bool.and_eq_true] at hready
    exact absurd ⟨Bool.eq_false_iff.mpr hreset, hready.1, hready.2⟩ h

/-- A word that cannot be read lies outside guest RAM. -/
theorem ramWord_error {i : Word} {e : VblkFault} (h : ramWord env i v = .error e) : e ≠ .divByZero := by
  rintro rfl
  exact avoids_check (e := .divByZero) (by decide) h

/-- Behind the checks the first turn divides, if the queue has no size. -/
theorem notifyBatch_divByZero_iff {newAvail : BitVec 16} (hne : (v.queues index).lastAvail ≠ newAvail) :
    notifyBatch env index newAvail v = .error .divByZero ↔
      (v.queues index).queueNum = 0 ∧ ∃ w, ramWord env (v.queues index).queueUsed v = .ok w := by
  by_cases hzero : (v.queues index).queueNum = 0
  · rw [and_iff_right hzero]
    unfold notifyBatch
    simp only
    cases hused : ramWord env (v.queues index).queueUsed v with
    | error e =>
      refine iff_of_false (fun h => ?_) fun ⟨w, hw⟩ => by cases hw
      cases h
      exact ramWord_error hused rfl
    | ok w =>
      refine iff_of_true ?_ ⟨w, rfl⟩
      change (notifyLoop env index newAvail _ (ringIdx w) v >>= _) = _
      rw [notifyLoop_divides (distance_pos hne) hne hzero]
      rfl
  · exact iff_of_false (notifyBatch_avoids (by decide) (fun _ => hzero) newAvail) fun h => hzero h.1

/-- **A notification divides by zero** exactly if the queue has no size and its index has moved backwards. -/
theorem notify_divByZero_iff :
    virtioQueueNotifyHandler env index v = .error .divByZero ↔ v.Divides env index := by
  by_cases hlive : v.Live index
  · cases havail : ramWord env (v.queues index).queueAvail v with
    | error e =>
      refine iff_of_false (fun h => ?_) fun h => ?_
      · unfold virtioQueueNotifyHandler at h
        simp only [hlive.needsReset, hlive.driverOk, hlive.ready, Bool.false_eq_true, if_false, Bool.and_self,
          Bool.not_true] at h
        rw [havail] at h
        cases h
        exact ramWord_error havail rfl
      · obtain ⟨w, hw, -⟩ := h.avail
        rw [havail] at hw
        cases hw
    | ok w =>
      have hback : v.Divides env index → ringIdx w < (v.queues index).lastAvail := by
        intro h
        obtain ⟨w', hw', hlt⟩ := h.avail
        rw [havail] at hw'
        cases hw'
        exact hlt
      rw [notify_live hlive havail]
      split_ifs with hfails hsame
      · refine iff_of_false (fun h => nomatch h) fun h => ?_
        have hle := ((sizeCheckFails_iff _ _).mp hfails).1
        exact absurd (hback h) (BitVec.not_lt.mpr hle)
      · refine iff_of_false (fun h => nomatch h) fun h => ?_
        have hlt := hback h
        rw [hsame] at hlt
        exact absurd hlt (BitVec.lt_irrefl _)
      · rw [notifyBatch_divByZero_iff hsame]
        refine ⟨fun ⟨hzero, hused⟩ => ⟨hlive, hzero, ⟨w, havail, ?_⟩, hused⟩, fun h => ⟨h.queueNum, h.used⟩⟩
        rw [sizeCheckFails_iff, hzero, not_and] at hfails
        by_contra hle
        exact hfails (BitVec.not_lt.mp hle) (distance_pos hsame)
  · refine iff_of_false (fun h => ?_) fun h => hlive h.live
    have hleft : virtioQueueNotifyHandler env index v = .ok v ∨ virtioQueueNotifyHandler env index v = .ok v.setFail :=
      notify_not_live hlive
    rcases hleft with h' | h'
    · rw [h'] at h
      cases h
    · rw [h'] at h
      cases h

/-- An operation that divides by zero: the notification of such a queue. -/
def VblkOp.Divides (env : VblkEnv) (v : VirtioBlk) : VblkOp → Prop
  | .memory _ => False
  | .write addr value =>
    (addr >>> 2).toNat * 4 = 0x050 ∧ ∃ h : value.toNat < 2, v.Divides env ⟨value.toNat, h⟩

theorem exec_divByZero_iff (op : VblkOp) : op.exec env v = .error .divByZero ↔ op.Divides env v := by
  cases op with
  | memory ram => exact iff_of_false (fun h => nomatch h) id
  | write addr value =>
    unfold VblkOp.exec VblkOp.Divides virtioBlkWrite
    simp only
    generalize (addr >>> 2).toNat * 4 = reg
    split
    case h_13 =>
      rw [and_iff_right rfl]
      split_ifs with hvalue
      · rw [notify_divByZero_iff]
        exact ⟨fun h => ⟨hvalue, h⟩, fun ⟨_, h⟩ => h⟩
      · exact iff_of_false (fun h => nomatch h) fun ⟨h, _⟩ => hvalue h
    case h_6 =>
      refine iff_of_false ?_ fun h => absurd h.1 (by decide)
      split_ifs
      · exact Avoids.bind (avoids_check (by decide)) fun _ => avoids_pure _
      · exact fun h => nomatch h
    case h_16 =>
      refine iff_of_false ?_ fun h => ?_
      · split_ifs
        · exact fun h => nomatch h
        · exact fun h => nomatch h
      · have hreg := h.1
        contradiction
    all_goals exact iff_of_false (fun h => nomatch h) fun h => absurd h.1 (by decide)

/-- An operation of the run divides by zero, in the state it finds. -/
def RunDivides (env : VblkEnv) : List VblkOp → VirtioBlk → Prop
  | [], _ => False
  | op :: ops, v => op.Divides env v ∨ ∃ v', op.exec env v = .ok v' ∧ RunDivides env ops v'

/-- **A run divides by zero exactly if it notifies a queue without a size whose index has moved backwards.** -/
theorem vblkRun_divByZero_iff (env : VblkEnv) (ops : List VblkOp) (v : VirtioBlk) :
    vblkRun env ops v = .error .divByZero ↔ RunDivides env ops v := by
  induction ops generalizing v with
  | nil => exact iff_of_false (fun h => nomatch h) id
  | cons op ops ih =>
    unfold vblkRun RunDivides
    rw [← exec_divByZero_iff]
    cases hexec : op.exec env v with
    | error e =>
      constructor
      · exact fun h => .inl h
      · rintro (h | ⟨v', ⟨⟩, -⟩)
        exact h
    | ok v1 =>
      constructor
      · exact fun h => .inr ⟨v1, rfl, (ih v1).mp h⟩
      · rintro (h | ⟨v', h, hrun⟩)
        · cases h
        · cases h
          exact (ih v1).mpr hrun

end Division

/-- Queue 0 is made ready without a size while `avail.idx` is 1, and notified after it has gone back to 0. -/
def sizeless : List VblkOp :=
  [.memory (ramOf [(0, 0x00010000)]), .write 0x044 1, .write 0x070 4, .memory fun _ => 0, .write 0x050 0]

theorem vblkRun_divides_sizeless : vblkRun smallEnv sizeless vblkReset = .error .divByZero := by rfl

end Rv32emu
