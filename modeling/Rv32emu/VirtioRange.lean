import Rv32emu.VirtioQueue

/-!
# Where the virtio block device reads and writes

* `Safe` : an operation that makes no access outside guest RAM or the disk;
* `RequestInside`, `TurnInside`, `LoopInside` : what the guest has to give for that, request by request;
* `VirtioBlk.BasesInside` : `vblk_preprocess` keeps the first word of each ring in guest RAM;
* `vblkRun_safe_iff` : the accesses of a run stay inside exactly if every batch does.
-/

namespace Rv32emu

/-! ## Operations without an access outside -/

def Safe {α : Type} (x : VblkM α) : Prop := x ≠ .error .outside

section Safe

variable {α β : Type}

@[simp] theorem safe_ok (a : α) : Safe (.ok a : VblkM α) := fun h => nomatch h

@[simp] theorem safe_pure (a : α) : Safe (pure a : VblkM α) := fun h => nomatch h

theorem safe_bind {x : VblkM α} {f : α → VblkM β} : Safe (x >>= f) ↔ Safe x ∧ ∀ a, x = .ok a → Safe (f a) := by
  cases x with
  | error e =>
    refine ⟨fun h => ⟨fun he => h ?_, fun a ha => (nomatch ha)⟩, fun h he => h.1 ?_⟩
    · cases he
      rfl
    · cases he
      rfl
  | ok a =>
    refine ⟨fun h => ⟨safe_ok a, fun b hb => ?_⟩, fun h => h.2 a rfl⟩
    cases hb
    exact h

theorem safe_check {c : Bool} {a : α} : Safe (if c then .ok a else .error .outside : VblkM α) ↔ c = true := by
  cases c with
  | false => exact iff_of_false (fun h => h rfl) Bool.false_ne_true
  | true => exact iff_of_true (safe_ok a) rfl

theorem safe_check_bind {c : Bool} {a : α} {f : α → VblkM β} :
    Safe ((if c then .ok a else .error .outside : VblkM α) >>= f) ↔ c = true ∧ Safe (f a) := by
  rw [safe_bind, safe_check]
  refine and_congr_right fun hc => ?_
  subst hc
  exact ⟨fun h => h a rfl, fun h b hb => by cases hb; exact h⟩

theorem safe_map {x : VblkM α} {f : α → β} : Safe (do return f (← x)) ↔ Safe x := by
  rw [safe_bind]
  exact ⟨And.left, fun h => ⟨h, fun a _ => safe_pure (f a)⟩⟩

end Safe

/-! ## Requests -/

section Inside

variable (env : VblkEnv)

/-- The handler goes on to the transfer: the sector is within the capacity, and the request is a read, or a
write to a device that is not read-only. -/
def transfers (d0 : VirtqDesc) (v : VirtioBlk) : Prop :=
  ¬ v.capacity - 1 < v.ram.dword (d0.addr.toNat + 8) ∧
    (v.ram.word d0.addr.toNat = 0 ∨ v.ram.word d0.addr.toNat = 1 ∧ v.deviceFeatures &&& 0x20 = 0)

/-- The header, the status byte and, for a transfer, the data and the sectors. -/
structure ChainInside (d0 d1 d2 : VirtqDesc) (v : VirtioBlk) : Prop where
  header : inside d0.addr.toNat 16 env.memSize = true
  status : inside d2.addr.toNat 1 env.memSize = true
  data : transfers d0 v → inside d1.addr.toNat d1.len.toNat env.memSize = true
  sectors : transfers d0 v →
    inside (sectorOff (v.ram.dword (d0.addr.toNat + 8))) d1.len.toNat env.diskSize = true

/-- The three descriptors, and what they name if they form a chain. -/
structure RequestInside (queue : VirtioBlkQueue) (idx : BitVec 16) (v : VirtioBlk) : Prop where
  first : inside (queue.descOff idx) 16 env.memSize = true
  second : inside (queue.descOff (queue.chain v.ram idx).1.next) 16 env.memSize = true
  third : inside (queue.descOff (queue.chain v.ram idx).2.1.next) 16 env.memSize = true
  chain : validChain (queue.chain v.ram idx).1 (queue.chain v.ram idx).2.1 (queue.chain v.ram idx).2.2 = true →
    ChainInside env (queue.chain v.ram idx).1 (queue.chain v.ram idx).2.1 (queue.chain v.ram idx).2.2 v

/-- The entry of the available ring, the request and, if it is completed, the element of the used ring. -/
structure TurnInside (index : Fin 2) (u : BitVec 16) (v : VirtioBlk) : Prop where
  avail : inside (4 * ((v.queues index).availWord ((v.queues index).lastAvail.toNat %
    (v.queues index).queueNum.toNat)).toNat) 4 env.memSize = true
  request : RequestInside env (v.queues index) (v.nextIdx index) v
  used : validChain ((v.queues index).chain v.ram (v.nextIdx index)).1
      ((v.queues index).chain v.ram (v.nextIdx index)).2.1 ((v.queues index).chain v.ram (v.nextIdx index)).2.2 = true →
    transfers ((v.queues index).chain v.ram (v.nextIdx index)).1 v →
      inside (4 * ((v.queues index).usedElem u).toNat) 4 env.memSize = true ∧
        inside (4 * ((v.queues index).usedElem u + 1).toNat) 4 env.memSize = true

end Inside

section Requests

variable {env : VblkEnv} {v v' : VirtioBlk}

theorem setStatus_safe {d : VirtqDesc} {s : BitVec 8} :
    Safe (setStatus env d.addr s v) ↔ inside d.addr.toNat 1 env.memSize = true := safe_check

theorem handleChain_safe_iff {d0 d1 d2 : VirtqDesc} :
    Safe (handleChain env d0 d1 d2 v) ↔ ChainInside env d0 d1 d2 v := by
  unfold handleChain readHeader
  rw [safe_check_bind]
  have hiff : ChainInside env d0 d1 d2 v ↔ inside d0.addr.toNat 16 env.memSize = true ∧
      inside d2.addr.toNat 1 env.memSize = true ∧ (transfers d0 v →
        inside d1.addr.toNat d1.len.toNat env.memSize = true ∧
          inside (sectorOff (v.ram.dword (d0.addr.toNat + 8))) d1.len.toNat env.diskSize = true) :=
    ⟨fun h => ⟨h.header, h.status, fun ht => ⟨h.data ht, h.sectors ht⟩⟩,
      fun h => ⟨h.1, h.2.1, fun ht => (h.2.2 ht).1, fun ht => (h.2.2 ht).2⟩⟩
  rw [hiff]
  refine and_congr_right fun _ => ?_
  have hrefused : ∀ s, ¬ transfers d0 v → (Safe (do return ((none : Option Word), ← setStatus env d2.addr s v)) ↔
      inside d2.addr.toNat 1 env.memSize = true ∧ (transfers d0 v →
        inside d1.addr.toNat d1.len.toNat env.memSize = true ∧
          inside (sectorOff (v.ram.dword (d0.addr.toNat + 8))) d1.len.toNat env.diskSize = true)) := by
    intro s hno
    rw [safe_map, setStatus_safe, and_iff_left fun ht => absurd ht hno]
  simp only
  split_ifs with hcap htype htype1 hro
  · exact hrefused 1 fun ht => ht.1 hcap
  · have ht : transfers d0 v := ⟨hcap, .inl htype⟩
    unfold virtioBlkReadHandler
    rw [safe_check_bind, safe_map, setStatus_safe, Bool.and_eq_true, forall_prop_of_true ht]
    exact and_comm
  · refine hrefused 1 fun ht => ?_
    rcases ht.2 with h0 | h1
    · exact htype h0
    · exact hro h1.2
  · have ht : transfers d0 v := ⟨hcap, .inr ⟨htype1, not_not.mp hro⟩⟩
    unfold virtioBlkWriteHandler
    rw [safe_check_bind, safe_map, setStatus_safe, Bool.and_eq_true, forall_prop_of_true ht]
    exact and_comm
  · refine hrefused 2 fun ht => ?_
    rcases ht.2 with h0 | h1
    · exact htype h0
    · exact htype1 h1.1

/-- A request whose chain is valid is completed exactly if it leads to a transfer. -/
theorem handleChain_ok_iff {d0 d1 d2 : VirtqDesc} {r : Option Word} (h : handleChain env d0 d1 d2 v = .ok (r, v')) :
    r.isSome = true ↔ transfers d0 v := by
  obtain ⟨⟨type, sector⟩, hheader, h⟩ := bind_ok h
  obtain ⟨-, hfields⟩ := ite_ok hheader
  obtain ⟨rfl, rfl⟩ := Prod.mk.inj hfields
  simp only at h
  split_ifs at h with hcap htype htype1 hro
  · obtain ⟨v1, -, h⟩ := bind_ok h
    cases h
    exact iff_of_false Bool.false_ne_true fun ht => ht.1 hcap
  · obtain ⟨v1, -, h⟩ := bind_ok h
    obtain ⟨v2, -, h⟩ := bind_ok h
    cases h
    exact iff_of_true rfl ⟨hcap, .inl htype⟩
  · obtain ⟨v1, -, h⟩ := bind_ok h
    cases h
    exact iff_of_false Bool.false_ne_true fun ht => ht.2.elim htype fun h1 => hro h1.2
  · obtain ⟨v1, -, h⟩ := bind_ok h
    obtain ⟨v2, -, h⟩ := bind_ok h
    cases h
    exact iff_of_true rfl ⟨hcap, .inr ⟨htype1, not_not.mp hro⟩⟩
  · obtain ⟨v1, -, h⟩ := bind_ok h
    cases h
    exact iff_of_false Bool.false_ne_true fun ht => ht.2.elim htype fun h1 => htype1 h1.1

theorem handler_safe_iff {queue : VirtioBlkQueue} {idx : BitVec 16} :
    Safe (virtioBlkDescHandler env queue idx v) ↔ RequestInside env queue idx v := by
  unfold virtioBlkDescHandler readDesc
  rw [safe_check_bind, safe_check_bind, safe_check_bind]
  constructor
  · rintro ⟨h0, h1, h2, hchain⟩
    refine ⟨h0, h1, h2, fun hvalid => ?_⟩
    split_ifs at hchain with hv
    · exact handleChain_safe_iff.mp hchain
    · exact absurd hvalid hv
  · rintro ⟨h0, h1, h2, hchain⟩
    refine ⟨h0, h1, h2, ?_⟩
    split_ifs with hvalid
    · exact handleChain_safe_iff.mpr (hchain hvalid)
    · exact safe_pure _

/-- A request is completed exactly if its chain is valid and leads to a transfer. -/
theorem handler_ok_iff {queue : VirtioBlkQueue} {idx : BitVec 16} {r : Option Word}
    (h : virtioBlkDescHandler env queue idx v = .ok (r, v')) :
    r.isSome = true ↔
      validChain (queue.chain v.ram idx).1 (queue.chain v.ram idx).2.1 (queue.chain v.ram idx).2.2 = true ∧
      transfers (queue.chain v.ram idx).1 v := by
  obtain ⟨d0, h0, h⟩ := bind_ok h
  obtain ⟨-, rfl⟩ := ite_ok h0
  obtain ⟨d1, h1, h⟩ := bind_ok h
  obtain ⟨-, rfl⟩ := ite_ok h1
  obtain ⟨d2, h2, h⟩ := bind_ok h
  obtain ⟨-, rfl⟩ := ite_ok h2
  split_ifs at h with hvalid
  · exact (handleChain_ok_iff h).trans (and_iff_right hvalid).symm
  · cases h
    exact iff_of_false Bool.false_ne_true fun hv => hvalid hv.1

/-- A refused request with a valid chain is answered in its status byte. -/
theorem handleChain_refused {d0 d1 d2 : VirtqDesc} (h : handleChain env d0 d1 d2 v = .ok (none, v')) :
    ∃ s : BitVec 8, (s = 1 ∨ s = 2) ∧ v' = { v with ram := v.ram.put d2.addr.toNat s } := by
  have hanswer : ∀ s, (do return ((none : Option Word), ← setStatus env d2.addr s v)) = .ok (none, v') →
      v' = { v with ram := v.ram.put d2.addr.toNat s } := by
    intro s hs
    obtain ⟨v1, hstatus, hs⟩ := bind_ok hs
    cases hs
    exact (setStatus_ok hstatus).2
  obtain ⟨⟨type, sector⟩, -, h⟩ := bind_ok h
  simp only at h
  split_ifs at h with hcap htype htype1 hro
  · exact ⟨1, .inl rfl, hanswer 1 h⟩
  · obtain ⟨v1, -, h⟩ := bind_ok h
    obtain ⟨v2, -, h⟩ := bind_ok h
    cases h
  · exact ⟨1, .inl rfl, hanswer 1 h⟩
  · obtain ⟨v1, -, h⟩ := bind_ok h
    obtain ⟨v2, -, h⟩ := bind_ok h
    cases h
  · exact ⟨2, .inr rfl, hanswer 2 h⟩

/-- A request whose chain is not valid is answered by a device failure alone. -/
theorem handler_refused {queue : VirtioBlkQueue} {idx : BitVec 16}
    (h : virtioBlkDescHandler env queue idx v = .ok (none, v')) :
    (validChain (queue.chain v.ram idx).1 (queue.chain v.ram idx).2.1 (queue.chain v.ram idx).2.2 = true ∧
      ∃ s : BitVec 8, (s = 1 ∨ s = 2) ∧
        v' = { v with ram := v.ram.put (queue.chain v.ram idx).2.2.addr.toNat s }) ∨
    (¬ validChain (queue.chain v.ram idx).1 (queue.chain v.ram idx).2.1 (queue.chain v.ram idx).2.2 = true ∧
      v' = v.setFail) := by
  obtain ⟨d0, h0, h⟩ := bind_ok h
  obtain ⟨-, rfl⟩ := ite_ok h0
  obtain ⟨d1, h1, h⟩ := bind_ok h
  obtain ⟨-, rfl⟩ := ite_ok h1
  obtain ⟨d2, h2, h⟩ := bind_ok h
  obtain ⟨-, rfl⟩ := ite_ok h2
  split_ifs at h with hvalid
  · exact .inl ⟨hvalid, handleChain_refused h⟩
  · cases h
    exact .inr ⟨hvalid, rfl⟩

/-- A transfer: the data of a read or the sectors of a write, and the status byte. -/
def VirtioBlk.transfer (d0 d1 d2 : VirtqDesc) (v : VirtioBlk) : VirtioBlk :=
  let off := sectorOff (v.ram.dword (d0.addr.toNat + 8))
  let v := if v.ram.word d0.addr.toNat = 0 then { v with ram := v.ram.copy d1.addr.toNat v.disk off d1.len.toNat }
    else { v with disk := v.disk.copy off v.ram d1.addr.toNat d1.len.toNat }
  { v with ram := v.ram.put d2.addr.toNat 0 }

theorem handleChain_transfers {d0 d1 d2 : VirtqDesc} (h : ChainInside env d0 d1 d2 v) (ht : transfers d0 v) :
    handleChain env d0 d1 d2 v = .ok (some d1.len, v.transfer d0 d1 d2) := by
  have hheader : readHeader env d0.addr v = .ok (v.ram.word d0.addr.toNat, v.ram.dword (d0.addr.toNat + 8)) :=
    if_pos h.header
  have hstatus : ∀ w : VirtioBlk, setStatus env d2.addr 0 w = .ok { w with ram := w.ram.put d2.addr.toNat 0 } :=
    fun w => if_pos h.status
  have hdata : (inside d1.addr.toNat d1.len.toNat env.memSize &&
      inside (sectorOff (v.ram.dword (d0.addr.toNat + 8))) d1.len.toNat env.diskSize) = true := by
    rw [h.data ht, h.sectors ht]
    rfl
  unfold handleChain
  rw [hheader]
  change (if _ then _ else _ : VblkM _) = _
  rw [if_neg ht.1]
  unfold VirtioBlk.transfer
  by_cases hread : v.ram.word d0.addr.toNat = 0
  · rw [if_pos hread]
    unfold virtioBlkReadHandler
    rw [if_pos hdata]
    change (do return (_, ← setStatus env _ 0 _) : VblkM _) = _
    rw [hstatus]
    simp only [hread, if_true]
    rfl
  · have hwrite := ht.2.resolve_left hread
    rw [if_neg hread, if_pos hwrite.1, if_neg (not_not.mpr hwrite.2)]
    unfold virtioBlkWriteHandler
    rw [if_pos hdata]
    change (do return (_, ← setStatus env _ 0 _) : VblkM _) = _
    rw [hstatus]
    simp only [hread, if_false]
    rfl

/-- **A request that leads to a transfer** and stays inside is completed. -/
theorem handler_transfers {queue : VirtioBlkQueue} {idx : BitVec 16} (h : RequestInside env queue idx v)
    (hvalid : validChain (queue.chain v.ram idx).1 (queue.chain v.ram idx).2.1 (queue.chain v.ram idx).2.2 = true)
    (ht : transfers (queue.chain v.ram idx).1 v) :
    virtioBlkDescHandler env queue idx v = .ok (some (queue.chain v.ram idx).2.1.len,
      v.transfer (queue.chain v.ram idx).1 (queue.chain v.ram idx).2.1 (queue.chain v.ram idx).2.2) := by
  have hread : ∀ i, inside (queue.descOff i) 16 env.memSize = true →
      readDesc env queue i v = .ok (v.ram.desc (queue.descOff i)) := fun i hi => if_pos hi
  unfold virtioBlkDescHandler
  rw [hread _ h.first]
  change (readDesc env queue (queue.chain v.ram idx).1.next v >>= _) = _
  rw [hread _ h.second]
  change (readDesc env queue (queue.chain v.ram idx).2.1.next v >>= _) = _
  rw [hread _ h.third]
  exact (if_pos hvalid).trans (handleChain_transfers (h.chain hvalid) ht)

/-- The end of a turn writes the used element, if the request has succeeded. -/
theorem turnEnd_safe_iff {index : Fin 2} {u : BitVec 16} (hnum : (v.queues index).queueNum ≠ 0) (r : Option Word)
    (v1 : VirtioBlk) :
    Safe (match ((r, v1) : Option Word × VirtioBlk) with
      | (none, v1) => return (false, v1.setFail)
      | (some len, v1) => do
        let used := (v.queues index).usedWord (← (v.queues index).slot u)
        let v1 ← setRamWord env used ((v.nextIdx index).setWidth 32) v1
        let v1 ← setRamWord env (used + 1) len v1
        return (true, v1.setQueue index { v.queues index with lastAvail := (v.queues index).lastAvail + 1 }) :
        VblkM (Bool × VirtioBlk)) ↔ (r.isSome = true →
      inside (4 * ((v.queues index).usedElem u).toNat) 4 env.memSize = true ∧
        inside (4 * ((v.queues index).usedElem u + 1).toNat) 4 env.memSize = true) := by
  have hslot : (v.queues index).slot u = .ok (u.toNat % (v.queues index).queueNum.toNat) := if_neg hnum
  cases r with
  | none => exact iff_of_true (safe_pure _) fun h => absurd h Bool.false_ne_true
  | some len =>
    rw [hslot]
    change Safe (setRamWord env ((v.queues index).usedElem u) _ v1 >>= _) ↔ _
    unfold setRamWord
    rw [safe_check_bind, safe_check_bind, and_iff_left (safe_pure _)]
    exact ⟨fun h _ => h, fun h => h rfl⟩

/-- **A turn of the loop** stays inside exactly if its entry, its request and its used element do. -/
theorem notifyTurn_safe_iff {index : Fin 2} {u : BitVec 16} (hnum : (v.queues index).queueNum ≠ 0) :
    Safe (notifyTurn env index u v) ↔ TurnInside env index u v := by
  have hslots : ∀ idx, (v.queues index).slot idx = .ok (idx.toNat % (v.queues index).queueNum.toNat) :=
    fun idx => if_neg hnum
  unfold notifyTurn
  change Safe ((v.queues index).slot _ >>= _) ↔ _
  rw [hslots]
  change Safe (ramWord env ((v.queues index).availWord _) v >>= _) ↔ _
  unfold ramWord
  rw [safe_check_bind]
  change _ ∧ Safe (virtioBlkDescHandler env (v.queues index) (v.nextIdx index) v >>= _) ↔ _
  rw [safe_bind, handler_safe_iff]
  constructor
  · rintro ⟨havail, hrequest, hrest⟩
    refine ⟨havail, hrequest, fun hvalid ht => ?_⟩
    exact (turnEnd_safe_iff hnum _ _).mp (hrest _ (handler_transfers hrequest hvalid ht)) rfl
  · rintro ⟨havail, hrequest, hused⟩
    refine ⟨havail, hrequest, fun r hhandler => (turnEnd_safe_iff hnum r.1 r.2).mpr fun hsome => ?_⟩
    obtain ⟨hvalid, ht⟩ := (handler_ok_iff hhandler).mp hsome
    exact hused hvalid ht

/-- The next request of the queue has its data in guest RAM and its sectors on the disk. -/
def VirtioBlk.RequestFits (env : VblkEnv) (index : Fin 2) (v : VirtioBlk) : Prop :=
  let d := (v.queues index).chain v.ram (v.nextIdx index)
  validChain d.1 d.2.1 d.2.2 = true ∧ inside d.2.1.addr.toNat d.2.1.len.toNat env.memSize = true ∧
    inside (sectorOff (v.ram.dword (d.1.addr.toNat + 8))) d.2.1.len.toNat env.diskSize = true

/-- The next request has been answered without a transfer: the device needs a reset, and nothing but an error
in the status byte has been written. -/
structure VirtioBlk.Refused (index : Fin 2) (v v' : VirtioBlk) : Prop where
  needsReset : v'.needsReset = true
  disk : v'.disk = v.disk
  ram : let d := (v.queues index).chain v.ram (v.nextIdx index)
    ∃ s : BitVec 8, (s = 1 ∨ s = 2) ∧
      v'.ram = if validChain d.1 d.2.1 d.2.2 = true then v.ram.put d.2.2.addr.toNat s else v.ram

theorem needsReset_setFail (v : VirtioBlk) : v.setFail.needsReset = true := by
  have hbit : (v.status ||| 64) &&& 64 ≠ 0 := by
    rw [show (v.status ||| 64) &&& 64 = 64 by ext i; simp; grind]
    decide
  unfold VirtioBlk.setFail VirtioBlk.needsReset
  simp only
  split
  · exact decide_eq_true hbit
  · exact decide_eq_true hbit

theorem setFail_ram (v : VirtioBlk) : v.setFail.ram = v.ram ∧ v.setFail.disk = v.disk := by
  unfold VirtioBlk.setFail
  simp only
  split
  · exact ⟨rfl, rfl⟩
  · exact ⟨rfl, rfl⟩

/-- **A turn answers its request**: by the transfer if that fits, else without one. -/
theorem notifyTurn_answers {index : Fin 2} {u : BitVec 16} {ok : Bool} (h : notifyTurn env index u v = .ok (ok, v')) :
    (ok = true → v.RequestFits env index) ∧ (ok = false → v.Refused index v') := by
  obtain ⟨r, v1, hhandler, ⟨rfl, rfl, rfl⟩ | ⟨len, rfl, rfl, rfl⟩⟩ := notifyTurn_cases h
  · refine ⟨fun hok => absurd hok Bool.false_ne_true, fun _ => ?_⟩
    obtain ⟨hram, hdisk⟩ := setFail_ram v1
    rcases handler_refused hhandler with ⟨hvalid, s, hs, rfl⟩ | ⟨hvalid, rfl⟩
    · exact ⟨needsReset_setFail _, hdisk, s, hs, by rw [hram, if_pos hvalid]⟩
    · obtain ⟨hram', hdisk'⟩ := setFail_ram v
      exact ⟨needsReset_setFail _, hdisk.trans hdisk', 1, .inl rfl, by rw [hram, hram', if_neg hvalid]⟩
  · refine ⟨fun _ => ?_, fun hok => absurd hok Bool.true_eq_false.mp⟩
    have hinside : RequestInside env (v.queues index) (v.nextIdx index) v := by
      rw [← handler_safe_iff, hhandler]
      exact safe_ok _
    obtain ⟨hvalid, ht⟩ := (handler_ok_iff hhandler).mp rfl
    exact ⟨hvalid, (hinside.chain hvalid).data ht, (hinside.chain hvalid).sectors ht⟩

end Requests

/-! ## Batches -/

section Batches

/-- Every turn for the rest of a batch stays inside. With `queue_num` zero the division comes first. -/
def LoopInside (env : VblkEnv) (index : Fin 2) (newAvail : BitVec 16) : Nat → BitVec 16 → VirtioBlk → Prop
  | 0, _, _ => True
  | n + 1, u, v =>
    if (v.queues index).lastAvail = newAvail ∨ (v.queues index).queueNum = 0 then True
    else TurnInside env index u v ∧
      ∀ v1, notifyTurn env index u v = .ok (true, v1) → LoopInside env index newAvail n (u + 1) v1

def BatchInside (env : VblkEnv) (index : Fin 2) (v : VirtioBlk) : Prop :=
  v.processes index = true → LoopInside env index (v.availIdx index) (v.batchSize index) (v.usedIdx index) v

variable {env : VblkEnv} {v v' : VirtioBlk} {index : Fin 2}

theorem notifyLoop_safe_iff {newAvail : BitVec 16} {n : Nat} {u : BitVec 16} :
    Safe (notifyLoop env index newAvail n u v) ↔ LoopInside env index newAvail n u v := by
  induction n generalizing u v with
  | zero => exact iff_of_true (safe_pure _) trivial
  | succ n ih =>
    unfold notifyLoop
    rw [LoopInside]
    by_cases hend : (v.queues index).lastAvail = newAvail
    · rw [if_pos hend, if_pos (.inl hend)]
      exact iff_of_true (safe_pure _) trivial
    by_cases hnum : (v.queues index).queueNum = 0
    · have hzero : notifyTurn env index u v = .error .divByZero := by
        unfold notifyTurn VirtioBlkQueue.slot
        simp only
        rw [if_pos hnum]
        rfl
      rw [if_neg hend, if_pos (.inr hnum), hzero]
      refine iff_of_true ?_ trivial
      intro h
      cases h
    rw [if_neg hend, if_neg (not_or.mpr ⟨hend, hnum⟩), safe_bind, notifyTurn_safe_iff hnum]
    refine and_congr_right fun _ => ⟨fun h v1 hturn => ih.mp (h (true, v1) hturn), fun h r hturn => ?_⟩
    obtain ⟨ok, v1⟩ := r
    cases ok with
    | false => exact safe_pure _
    | true => exact ih.mpr (h v1 hturn)

/-- The first word of each ring and of the descriptor table lies in guest RAM. -/
structure VirtioBlkQueue.BasesInside (env : VblkEnv) (q : VirtioBlkQueue) : Prop where
  desc : inside (4 * q.queueDesc.toNat) 4 env.memSize = true
  avail : inside (4 * q.queueAvail.toNat) 4 env.memSize = true
  used : inside (4 * q.queueUsed.toNat) 4 env.memSize = true

theorem publishUsed_safe {q : VirtioBlkQueue} (hq : q.BasesInside env) (u : BitVec 16) :
    Safe (publishUsed env q u v) := by
  unfold publishUsed ramWord setRamWord
  rw [safe_check_bind, safe_check_bind, safe_check_bind]
  exact ⟨hq.used, hq.used, hq.avail, safe_pure _⟩

/-- **A notification** stays inside exactly if its batch does. -/
theorem notify_safe_iff (hq : (v.queues index).BasesInside env) :
    Safe (virtioQueueNotifyHandler env index v) ↔ BatchInside env index v := by
  have hread : ∀ i, inside (4 * i.toNat) 4 env.memSize = true → ramWord env i v = .ok (v.ram.word (4 * i.toNat)) :=
    fun i hi => if_pos hi
  unfold virtioQueueNotifyHandler BatchInside VirtioBlk.processes
  simp only
  cases hreset : v.needsReset with
  | true => exact iff_of_true (safe_pure _) fun h => (nomatch h)
  | false =>
  cases hready : v.driverOk && (v.queues index).ready with
  | false => exact iff_of_true (safe_pure _) fun h => (nomatch h)
  | true =>
  rw [if_neg Bool.false_ne_true, if_neg (by decide), hread _ hq.avail]
  change Safe (if sizeCheckFails (v.queues index) (v.availIdx index) = true then _ else _) ↔ _
  cases hsize : sizeCheckFails (v.queues index) (v.availIdx index) with
  | true => exact iff_of_true (safe_pure _) fun h => (nomatch h)
  | false =>
  rw [if_neg Bool.false_ne_true]
  by_cases hmore : (v.queues index).lastAvail = v.availIdx index
  · have hmore' : (v.queues index).lastAvail = ringIdx (v.ram.word (4 * (v.queues index).queueAvail.toNat)) := hmore
    rw [if_pos hmore']
    exact iff_of_true (safe_pure _) fun h => absurd hmore (by simpa using h)
  · have hmore' : ¬ (v.queues index).lastAvail = ringIdx (v.ram.word (4 * (v.queues index).queueAvail.toNat)) := hmore
    rw [if_neg hmore', hread _ hq.used]
    change Safe (notifyLoop env index (v.availIdx index) (v.batchSize index)
      (ringIdx (v.ram.word (4 * (v.queues index).queueUsed.toNat))) v >>= _) ↔ _
    have hused : ringIdx (v.ram.word (4 * (v.queues index).queueUsed.toNat)) = v.usedIdx index := ringIdx_word ..
    have hproc : (!false && true && !false && decide ((v.queues index).lastAvail ≠ v.availIdx index)) = true := by
      simpa using hmore
    rw [hused, safe_bind, notifyLoop_safe_iff, forall_prop_of_true hproc]
    refine and_iff_left_of_imp fun _ r _ => ?_
    obtain ⟨u, v1⟩ := r
    cases u with
    | none => exact safe_pure _
    | some u => exact publishUsed_safe hq u

end Batches

/-! ## Runs -/

section Runs

variable {env : VblkEnv} {v v' : VirtioBlk} {index : Fin 2}

/-- Of the queues, only `last_avail` changes. -/
def QueuesAdvance (v v' : VirtioBlk) : Prop := ∀ i, ∃ k, v'.queues i = (v.queues i).advance k

theorem QueuesAdvance.of_eq (h : v'.queues = v.queues) : QueuesAdvance v v' := fun i =>
  ⟨0, by rw [h, VirtioBlkQueue.advance_zero]⟩

theorem QueuesAdvance.trans {w : VirtioBlk} (h : QueuesAdvance v v') (h' : QueuesAdvance v' w) : QueuesAdvance v w := by
  intro i
  obtain ⟨j, hj⟩ := h i
  obtain ⟨k, hk⟩ := h' i
  exact ⟨j + k, by rw [hk, hj, VirtioBlkQueue.advance_advance]⟩

theorem notifyTurn_queues {u : BitVec 16} {ok : Bool} (h : notifyTurn env index u v = .ok (ok, v')) :
    QueuesAdvance v v' := by
  obtain ⟨r, v1, hhandler, ⟨rfl, rfl, rfl⟩ | ⟨len, rfl, rfl, rfl⟩⟩ := notifyTurn_cases h
  · exact .of_eq ((handler_frame hhandler).trans (setFail_frame _ v1)).queues
  · intro i
    by_cases hi : i = index
    · subst hi
      exact ⟨1, Function.update_self ..⟩
    · refine ⟨0, (Function.update_of_ne hi ..).trans ?_⟩
      rw [VirtioBlkQueue.advance_zero, (handler_frame hhandler).queues]

theorem notifyLoop_queues {newAvail : BitVec 16} {n : Nat} {u : BitVec 16} {r : Option (BitVec 16)}
    (h : notifyLoop env index newAvail n u v = .ok (r, v')) : QueuesAdvance v v' := by
  induction n generalizing u v with
  | zero =>
    cases h
    exact .of_eq rfl
  | succ n ih =>
    unfold notifyLoop at h
    split_ifs at h
    · cases h
      exact .of_eq rfl
    · obtain ⟨⟨ok, v1⟩, hturn, h⟩ := bind_ok h
      cases ok with
      | false =>
        cases h
        exact notifyTurn_queues hturn
      | true => exact (notifyTurn_queues hturn).trans (ih h)

theorem notify_queues (h : virtioQueueNotifyHandler env index v = .ok v') : QueuesAdvance v v' := by
  rcases notify_cases h with ⟨-, hframe⟩ | ⟨-, r, v1, hloop, ⟨-, rfl⟩ | ⟨u, -, hpub⟩⟩
  · exact .of_eq hframe.queues
  · exact notifyLoop_queues hloop
  · exact (notifyLoop_queues hloop).trans (.of_eq (publishUsed_ok hpub).1)

/-- The bases of both queues lie in guest RAM. -/
def VirtioBlk.BasesInside (env : VblkEnv) (v : VirtioBlk) : Prop := ∀ i, (v.queues i).BasesInside env

theorem VirtioBlk.BasesInside.advance (hv : v.BasesInside env) (h : QueuesAdvance v v') : v'.BasesInside env := by
  intro i
  obtain ⟨k, hk⟩ := h i
  rw [hk]
  exact ⟨(hv i).desc, (hv i).avail, (hv i).used⟩

@[simp] theorem VirtioBlk.setQueue_self {q : VirtioBlkQueue} : (v.setQueue index q).queues index = q :=
  Function.update_self ..

theorem VirtioBlk.setQueue_of_ne {i : Fin 2} (hi : i ≠ index) {q : VirtioBlkQueue} :
    (v.setQueue index q).queues i = v.queues i :=
  Function.update_of_ne hi ..

theorem VirtioBlk.BasesInside.setQueue (hv : v.BasesInside env) {q : VirtioBlkQueue} (hq : q.BasesInside env) :
    (v.setQueue index q).BasesInside env := by
  intro i
  by_cases hi : i = index
  · subst hi
    rw [VirtioBlk.setQueue_self]
    exact hq
  · rw [VirtioBlk.setQueue_of_ne hi]
    exact hv i

theorem inside_zero (h4 : 4 ≤ env.memSize) : inside (4 * (0 : Word).toNat) 4 env.memSize = true := by
  unfold inside
  simpa using h4

/-- `vblk_preprocess` returns the number of a word of guest RAM. -/
theorem vblkPreprocess_inside (h4 : 4 ≤ env.memSize) (hmod : env.memSize % 4 = 0) (addr : Word) :
    inside (4 * (vblkPreprocess env addr v).1.toNat) 4 env.memSize = true := by
  unfold vblkPreprocess
  split_ifs with hbad
  · exact inside_zero h4
  · rw [not_or, not_le, not_not] at hbad
    have hlow : addr.toNat % 4 = 0 := by
      have h := congrArg BitVec.toNat hbad.2
      rw [BitVec.toNat_and] at h
      exact (Nat.and_two_pow_sub_one_eq_mod addr.toNat 2).symm.trans h
    have hdiv : (addr >>> 2).toNat = addr.toNat / 4 := by
      rw [BitVec.toNat_ushiftRight, Nat.shiftRight_eq_div_pow]
    unfold inside
    rw [Bool.or_eq_true]
    right
    rw [decide_eq_true_eq, hdiv]
    omega

theorem vblkPreprocess_queues (addr : Word) : (vblkPreprocess env addr v).2.queues = v.queues := by
  unfold vblkPreprocess
  split_ifs
  · exact (setFail_frame (fun _ => False) v).queues
  · rfl

theorem writeHigh_queues (value : Word) : (writeHigh value v).queues = v.queues := by
  unfold writeHigh
  split_ifs
  · exact (setFail_frame (fun _ => False) v).queues
  · rfl

theorem virtioBlkWrite_bases (h4 : 4 ≤ env.memSize) (hmod : env.memSize % 4 = 0) {addr value : Word}
    (hv : v.BasesInside env) (h : virtioBlkWrite env addr value v = .ok v') : v'.BasesInside env := by
  have hfail : v.setFail.BasesInside env := hv.advance (.of_eq (setFail_frame (fun _ => False) v).queues)
  have hpre : ∀ w, (vblkPreprocess env w v).2.BasesInside env :=
    fun w => hv.advance (.of_eq (vblkPreprocess_queues w))
  have hq : v.queue.BasesInside env := hv v.queueSel
  unfold virtioBlkWrite at h
  split at h
  · cases h
    exact hv.advance (.of_eq rfl)
  · cases h
    split_ifs
    · exact hv.advance (.of_eq rfl)
    · exact hv
  · cases h
    exact hv.advance (.of_eq rfl)
  · cases h
    split_ifs
    · exact hv.advance (.of_eq rfl)
    · exact hfail
  · cases h
    split_ifs
    · exact hv.setQueue ⟨hq.desc, hq.avail, hq.used⟩
    · exact hfail
  · have hready : (v.setQueue v.queueSel { v.queue with ready := value.getLsbD 0 }).BasesInside env :=
      hv.setQueue ⟨hq.desc, hq.avail, hq.used⟩
    simp only at h
    split_ifs at h
    · obtain ⟨w, hw, h⟩ := bind_ok h
      cases h
      exact hready.setQueue ⟨(hready _).desc, (hready _).avail, (hready _).used⟩
    · cases h
      exact hready
  · cases h
    exact (hpre value).setQueue ⟨vblkPreprocess_inside h4 hmod value, ((hpre value) _).avail, ((hpre value) _).used⟩
  · cases h
    exact hv.advance (.of_eq (writeHigh_queues value))
  · cases h
    exact hv.advance (.of_eq (writeHigh_queues value))
  · cases h
    exact hv.advance (.of_eq (writeHigh_queues value))
  · cases h
    exact (hpre value).setQueue ⟨((hpre value) _).desc, vblkPreprocess_inside h4 hmod value, ((hpre value) _).used⟩
  · cases h
    exact (hpre value).setQueue ⟨((hpre value) _).desc, ((hpre value) _).avail, vblkPreprocess_inside h4 hmod value⟩
  · split_ifs at h
    · exact hv.advance (notify_queues h)
    · cases h
      exact hfail
  · cases h
    exact hv.advance (.of_eq rfl)
  · cases h
    unfold virtioBlkUpdateStatus
    split_ifs
    · exact hv.advance (.of_eq rfl)
    · exact fun _ => ⟨inside_zero h4, inside_zero h4, inside_zero h4⟩
  · split_ifs at h
    cases h
    exact hv.advance (.of_eq rfl)

/-- An operation stays inside: a notification asks for it of its batch. -/
def VblkOp.Inside (env : VblkEnv) (v : VirtioBlk) : VblkOp → Prop
  | .memory _ => True
  | .write addr value =>
    (addr >>> 2).toNat * 4 = 0x050 → ∀ h : value.toNat < 2, BatchInside env ⟨value.toNat, h⟩ v

theorem exec_safe_iff (hv : v.BasesInside env) (op : VblkOp) : Safe (op.exec env v) ↔ op.Inside env v := by
  cases op with
  | memory ram => exact iff_of_true (safe_ok _) trivial
  | write addr value =>
    unfold VblkOp.exec VblkOp.Inside virtioBlkWrite
    simp only
    generalize (addr >>> 2).toNat * 4 = reg
    split
    case h_13 =>
      rw [forall_prop_of_true rfl]
      split_ifs with hvalue
      · rw [notify_safe_iff (hv _)]
        exact ⟨fun h _ => h, fun h => h hvalue⟩
      · exact iff_of_true (safe_pure _) fun h => absurd h hvalue
    case h_6 =>
      refine iff_of_true ?_ fun h => absurd h (by decide)
      split_ifs
      · unfold ramWord
        rw [safe_check_bind]
        exact ⟨(hv _).avail, safe_pure _⟩
      · exact safe_pure _
    case h_16 =>
      refine iff_of_true ?_ fun heq => ?_
      · split_ifs
        · exact safe_pure _
        · exact fun h => nomatch h
      · contradiction
    all_goals exact iff_of_true (safe_pure _) fun h => absurd h (by decide)

/-- Every operation of a run stays inside, in the state it finds. -/
def RunInside (env : VblkEnv) : List VblkOp → VirtioBlk → Prop
  | [], _ => True
  | op :: ops, v => op.Inside env v ∧ ∀ v', op.exec env v = .ok v' → RunInside env ops v'

/-- **A run stays inside guest RAM and the disk exactly if every batch of it does**: the descriptors of each
request, what they name and the entries of the rings. A turn that stays inside completes only a request that
fits, and answers every other one without a transfer. -/
theorem vblkRun_safe_iff (h4 : 4 ≤ env.memSize) (hmod : env.memSize % 4 = 0) (hreset : v.queues = fun _ => {})
    (ops : List VblkOp) :
    (Safe (vblkRun env ops v) ↔ RunInside env ops v) ∧
      ∀ (index : Fin 2) (u : BitVec 16) (ok : Bool) (w w' : VirtioBlk), notifyTurn env index u w = .ok (ok, w') →
        (ok = true → w.RequestFits env index) ∧ (ok = false → w.Refused index w') := by
  have hrun : ∀ ops (v : VirtioBlk), v.BasesInside env → (Safe (vblkRun env ops v) ↔ RunInside env ops v) := by
    intro ops
    induction ops with
    | nil => exact fun v _ => iff_of_true (safe_ok v) trivial
    | cons op ops ih =>
      intro v hv
      unfold vblkRun RunInside
      rw [safe_bind, exec_safe_iff hv]
      refine and_congr_right fun _ => forall_congr' fun v' => imp_congr_right fun hexec => ih v' ?_
      cases op with
      | memory ram =>
        cases hexec
        exact hv.advance (.of_eq rfl)
      | write addr value => exact virtioBlkWrite_bases h4 hmod hv hexec
  refine ⟨hrun ops v fun i => ?_, fun index u ok w w' => notifyTurn_answers⟩
  rw [hreset]
  exact ⟨inside_zero h4, inside_zero h4, inside_zero h4⟩

end Runs

/-- The two requests of `twoRequests` stay inside, and the second one is refused. -/
theorem vblkRun_safe_twoRequests :
    RunInside smallEnv (vblkSetup ++ [.memory twoRequests, .write 0x050 0]) vblkReset ∧
      ∃ w', notifyTurn smallEnv 0 1 (afterTurn 0 0 twoPending) = .ok (false, w') ∧
        (afterTurn 0 0 twoPending).Refused 0 w' := by
  have hok : (vblkRun smallEnv (vblkSetup ++ [.memory twoRequests, .write 0x050 0]) vblkReset).map (fun _ => ()) =
      .ok () := by decide +kernel
  obtain ⟨v, hv, -⟩ := map_ok hok
  have hturn : (notifyTurn smallEnv 0 1 (afterTurn 0 0 twoPending)).map Prod.fst = .ok false := by decide +kernel
  obtain ⟨⟨ok, w'⟩, hw', hok'⟩ := map_ok hturn
  obtain rfl : ok = false := hok'
  have hreset : vblkReset.queues = fun _ => {} := rfl
  obtain ⟨hiff, hturns⟩ := vblkRun_safe_iff (show 4 ≤ smallEnv.memSize by decide) (by decide) hreset
    (vblkSetup ++ [.memory twoRequests, .write 0x050 0])
  refine ⟨hiff.mp ?_, w', hw', (hturns 0 1 false (afterTurn 0 0 twoPending) w' hw').2 rfl⟩
  rw [hv]
  exact safe_ok v

/-- One request, which reads `len` bytes of the first sector to `addr`. -/
def readRequest (addr len : Word) : Bytes := ramOf
  [(0, 1024), (8, 16), (12, 0x00010001), (16, addr), (24, len), (28, 0x00020003), (32, 3000), (40, 1), (44, 2),
   (256, 0x00010000)]

/-- Neither a read past the end of the disk nor one to an address outside guest RAM is refused. -/
theorem vblkRun_leaves_memory :
    ¬ Safe (vblkRun smallEnv (vblkSetup ++ [.memory (readRequest 2048 1024), .write 0x050 0]) vblkReset) ∧
      ¬ Safe (vblkRun smallEnv (vblkSetup ++ [.memory (readRequest 4096 16), .write 0x050 0]) vblkReset) := by
  have hleaves : ∀ x : VblkM VirtioBlk, x.map (fun _ => ()) = .error .outside → ¬ Safe x := by
    intro x hx hsafe
    cases x with
    | error e =>
      cases hx
      exact hsafe rfl
    | ok v => cases hx
  exact ⟨hleaves _ (by decide +kernel), hleaves _ (by decide +kernel)⟩

end Rv32emu
