import Rv32emu.VirtioGuards

/-!
# The configuration space of the virtio block device

* `virtioBlkInit_capacity` : the capacity of the device at the start;
* `VblkCall`, `vblkCalls` : accesses of the registers and changes of guest memory;
* `notify_config` : a notification leaves the configuration alone;
* `VblkCall.Keeps` : a reset with a capacity of 32 bits, an access of the configuration that stays in it;
* `capacityKept_iff` : a run keeps the capacity and stays in the configuration exactly if its calls do.
-/

namespace Rv32emu

/-! ## Accesses -/

/-- The capacity of a disk: its size in sectors, rounded up. -/
theorem virtioBlkInit_capacity (image : Bytes) (size : BitVec 64) (readonly : Bool) (ram : Bytes) :
    (virtioBlkInit (some (image, size)) readonly ram).capacity = (size - 1) / 512 + 1 :=
  BitVec.extractLsb'_append_extractLsb'_eq_extractLsb' (by decide) |>.trans BitVec.extractLsb'_eq_self

/-- An access of a register, or a change of guest memory. -/
inductive VblkCall
  | op (o : VblkOp)
  | read (addr : Word)

section Calls

variable (env : VblkEnv)

def VblkCall.exec (v : VirtioBlk) : VblkCall → VblkM VirtioBlk
  | .op o => o.exec env v
  | .read addr => do
    let _ ← virtioBlkRead addr v
    return v

def vblkCalls : List VblkCall → VirtioBlk → VblkM VirtioBlk
  | [], v => .ok v
  | c :: cs, v => do vblkCalls cs (← c.exec env v)

end Calls

/-! ## The configuration under a notification -/

section Notify

variable {env : VblkEnv} {v v' : VirtioBlk} {index : Fin 2}

theorem setFail_config (v : VirtioBlk) : v.setFail.config = v.config := (setFail_frame (fun _ => False) v).config

theorem notifyTurn_config {u : BitVec 16} {ok : Bool} (h : notifyTurn env index u v = .ok (ok, v')) :
    v'.config = v.config := by
  obtain ⟨r, v1, hhandler, ⟨rfl, rfl, rfl⟩ | ⟨len, rfl, rfl, rfl⟩⟩ := notifyTurn_cases h
  · exact (setFail_config v1).trans (handler_frame hhandler).config
  · exact (handler_frame hhandler).config

theorem notifyLoop_config {newAvail : BitVec 16} {n : Nat} {u : BitVec 16} {r : Option (BitVec 16)}
    (h : notifyLoop env index newAvail n u v = .ok (r, v')) : v'.config = v.config := by
  induction n generalizing u v with
  | zero =>
    cases h
    rfl
  | succ n ih =>
    unfold notifyLoop at h
    split_ifs at h
    · cases h
      rfl
    · obtain ⟨⟨ok, v1⟩, hturn, h⟩ := bind_ok h
      cases ok with
      | false =>
        cases h
        exact notifyTurn_config hturn
      | true => exact (ih h).trans (notifyTurn_config hturn)

theorem publishUsed_config {queue : VirtioBlkQueue} {u : BitVec 16} (h : publishUsed env queue u v = .ok v') :
    v'.config = v.config := by
  obtain ⟨w, hw, h⟩ := bind_ok h
  obtain ⟨v1, h1, h⟩ := bind_ok h
  obtain ⟨-, rfl⟩ := ite_ok h1
  obtain ⟨a, ha, h⟩ := bind_ok h
  have hv' := Except.ok.inj h
  split_ifs at hv'
  · subst hv'
    rfl
  · subst hv'
    rfl

/-- **A notification** leaves the configuration alone. -/
theorem notify_config (h : virtioQueueNotifyHandler env index v = .ok v') : v'.config = v.config := by
  rcases notify_cases h with ⟨-, hframe⟩ | ⟨-, r, v1, hloop, ⟨-, rfl⟩ | ⟨u, -, hpub⟩⟩
  · exact hframe.config
  · exact notifyLoop_config hloop
  · exact (publishUsed_config hpub).trans (notifyLoop_config hloop)

/-- A notification makes no access of the configuration by number. -/
theorem notify_avoids_config (env : VblkEnv) (index : Fin 2) (v : VirtioBlk) :
    Avoids .config (virtioQueueNotifyHandler env index v) := by
  unfold virtioQueueNotifyHandler
  simp only
  have hconfig : VblkFault.config ≠ .outside := by decide
  split_ifs
  · exact avoids_pure _
  · exact avoids_pure _
  refine .bind (avoids_check hconfig) fun w => ?_
  split_ifs
  · exact avoids_pure _
  · exact avoids_pure _
  · exact notifyBatch_avoids hconfig (fun h => nomatch h) (ringIdx w)

end Notify

/-! ## One call -/

def readRegisters : List Nat := [0x000, 0x004, 0x008, 0x00c, 0x010, 0x034, 0x044, 0x060, 0x070, 0x0fc]

def writeRegisters : List Nat :=
  [0x014, 0x020, 0x024, 0x030, 0x038, 0x044, 0x080, 0x084, 0x094, 0x0a4, 0x090, 0x0a0, 0x050, 0x064, 0x070]

def regOf (addr : Word) : Nat := (addr >>> 2).toNat * 4

/-- The offset lies in the configuration space. -/
def InConfig (addr : Word) : Prop := 0x100 ≤ regOf addr ∧ regOf addr < 0x144

/-- A reset finds a capacity of 32 bits; any other offset that is no register lies in the configuration, and what is
written there leaves the capacity as it is. -/
def WriteKeeps (capacity : BitVec 64) (addr value : Word) : Prop :=
  (regOf addr = 0x070 → value = 0 → capacity.toNat < 2 ^ 32) ∧
    (regOf addr ∉ writeRegisters → InConfig addr ∧ (regOf addr = 0x100 → value = capacity.extractLsb' 0 32) ∧
      (regOf addr = 0x104 → value = capacity.extractLsb' 32 32))

def ReadKeeps (addr : Word) : Prop := regOf addr ∉ readRegisters → InConfig addr

def VblkCall.Keeps (capacity : BitVec 64) : VblkCall → Prop
  | .op (.memory _) => True
  | .op (.write addr value) => WriteKeeps capacity addr value
  | .read addr => ReadKeeps addr

/-- No access is made outside the configuration, and the capacity is that of `v`. -/
def Kept (v : VirtioBlk) (x : VblkM VirtioBlk) : Prop :=
  Avoids .config x ∧ ∀ v', x = .ok v' → v'.capacity = v.capacity

section Step

variable {env : VblkEnv} {v v' : VirtioBlk}

theorem capacity_low (v : VirtioBlk) : v.capacity.extractLsb' 0 32 = v.config 0 :=
  BitVec.extractLsb'_append_eq_right

theorem capacity_high (v : VirtioBlk) : v.capacity.extractLsb' 32 32 = v.config 1 :=
  BitVec.extractLsb'_append_eq_left

theorem capacity_eq_iff : v'.capacity = v.capacity ↔ v'.config 0 = v.config 0 ∧ v'.config 1 = v.config 1 := by
  refine ⟨fun h => ⟨?_, ?_⟩, fun ⟨h0, h1⟩ => ?_⟩
  · rw [← capacity_low, h, capacity_low]
  · rw [← capacity_high, h, capacity_high]
  · unfold VirtioBlk.capacity
    rw [h0, h1]

theorem capacity_lt_iff (v : VirtioBlk) : v.capacity.toNat < 2 ^ 32 ↔ v.config 1 = 0 := by
  unfold VirtioBlk.capacity
  have hlow := (v.config 0).isLt
  rw [BitVec.toNat_append, Nat.shiftLeft_eq, Nat.mul_comm, ← Nat.two_pow_add_eq_or_of_lt hlow, ← BitVec.toNat_inj]
  change _ ↔ (v.config 1).toNat = 0
  omega

theorem kept_ok {v1 : VirtioBlk} (h : v1.config = v.config) : Kept v (.ok v1) := by
  refine ⟨avoids_ok v1, fun v' hv' => ?_⟩
  cases hv'
  exact capacity_eq_iff.mpr ⟨congrFun h 0, congrFun h 1⟩

theorem kept_self (v : VirtioBlk) : Kept v (.ok v) := kept_ok rfl

theorem kept_setFail (v : VirtioBlk) : Kept v (.ok v.setFail) := kept_ok (setFail_config v)

theorem vblkPreprocess_config (addr : Word) : (vblkPreprocess env addr v).2.config = v.config := by
  unfold vblkPreprocess
  split_ifs
  · exact setFail_config v
  · rfl

theorem writeHigh_config (value : Word) : (writeHigh value v).config = v.config := by
  unfold writeHigh
  split_ifs
  · exact setFail_config v
  · rfl

/-- The registers other than the status leave the configuration alone. -/
theorem virtioBlkWrite_register {addr : Word} (hmem : regOf addr ∈ writeRegisters) (hstatus : regOf addr ≠ 0x070)
    (value : Word) : Kept v (virtioBlkWrite env addr value v) := by
  unfold virtioBlkWrite
  unfold regOf at hmem hstatus
  generalize (addr >>> 2).toNat * 4 = reg at hmem hstatus ⊢
  split
  case h_2 =>
    split_ifs
    · exact kept_ok rfl
    · exact kept_self v
  case h_4 =>
    split_ifs
    · exact kept_ok rfl
    · exact kept_setFail v
  case h_5 =>
    split_ifs
    · exact kept_ok rfl
    · exact kept_setFail v
  case h_6 =>
    simp only
    split_ifs
    · refine ⟨.bind (avoids_check (by decide)) fun _ => avoids_pure _, fun v' hv' => ?_⟩
      obtain ⟨w, -, hv'⟩ := bind_ok hv'
      cases hv'
      rfl
    · exact kept_ok rfl
  case h_13 =>
    split_ifs with hvalue
    · exact ⟨notify_avoids_config env _ v, fun v' hv' =>
        have hconfig := notify_config hv'
        capacity_eq_iff.mpr ⟨congrFun hconfig 0, congrFun hconfig 1⟩⟩
    · exact kept_setFail v
  case h_15 => exact absurd rfl hstatus
  case h_16 =>
    exfalso
    simp only [writeRegisters, List.mem_cons, List.not_mem_nil, or_false] at hmem
    rcases hmem with h | h | h | h | h | h | h | h | h | h | h | h | h | h | h
    all_goals contradiction
  case h_7 | h_11 | h_12 => exact kept_ok (vblkPreprocess_config value)
  case h_8 | h_9 | h_10 => exact kept_ok (writeHigh_config value)
  all_goals exact kept_ok rfl

/-- Every other offset is taken for a word of the configuration. -/
theorem virtioBlkWrite_config {addr : Word} (hmem : regOf addr ∉ writeRegisters) (value : Word) :
    virtioBlkWrite env addr value v =
      if h : 0x100 ≤ regOf addr ∧ (regOf addr - 0x100) / 4 < 17 then
        .ok { v with config := Function.update v.config ⟨(regOf addr - 0x100) / 4, h.2⟩ value }
      else .error .config := by
  unfold virtioBlkWrite
  unfold regOf at hmem ⊢
  generalize (addr >>> 2).toNat * 4 = reg at hmem ⊢
  split
  case h_16 => rfl
  all_goals exact absurd (by decide) hmem

theorem virtioBlkWrite_status {addr : Word} (h : regOf addr = 0x070) (value : Word) :
    virtioBlkWrite env addr value v = .ok (virtioBlkUpdateStatus value v) := by
  unfold virtioBlkWrite
  unfold regOf at h
  rw [h]
  rfl

theorem kept_ok_iff {v1 : VirtioBlk} : Kept v (.ok v1) ↔ v1.config 0 = v.config 0 ∧ v1.config 1 = v.config 1 := by
  rw [← capacity_eq_iff]
  refine ⟨fun h => h.2 v1 rfl, fun h => ⟨avoids_ok v1, fun v' hv' => ?_⟩⟩
  cases hv'
  exact h

/-- A reset writes zero to the upper half of the capacity. -/
theorem updateStatus_kept_iff (value : Word) :
    Kept v (.ok (virtioBlkUpdateStatus value v)) ↔ (value = 0 → v.capacity.toNat < 2 ^ 32) := by
  unfold virtioBlkUpdateStatus
  split_ifs with hvalue
  · exact iff_of_true (kept_ok rfl) fun h => absurd h hvalue
  · rw [kept_ok_iff, capacity_lt_iff, forall_prop_of_true (not_not.mp hvalue)]
    constructor
    · exact fun h => h.2.symm
    · exact fun h => ⟨rfl, h.symm⟩

theorem inConfig_iff (addr : Word) : InConfig addr ↔ 0x100 ≤ regOf addr ∧ (regOf addr - 0x100) / 4 < 17 := by
  unfold InConfig
  omega

/-- A word of the configuration is written: the capacity keeps its value only if the word is not one of its halves
or has that value. -/
theorem update_kept_iff {i : Fin 17} (value : Word) :
    Kept v (.ok { v with config := Function.update v.config i value }) ↔
      (i.val = 0 → value = v.config 0) ∧ (i.val = 1 → value = v.config 1) := by
  have hword : ∀ k : Fin 17,
      Function.update v.config i value k = v.config k ↔ (i.val = k.val → value = v.config k) := by
    intro k
    by_cases hk : i = k
    · subst hk
      rw [Function.update_self, forall_prop_of_true rfl]
    · rw [Function.update_of_ne (Ne.symm hk)]
      exact iff_of_true rfl fun h => absurd (Fin.ext h) hk
  rw [kept_ok_iff]
  exact and_congr (hword 0) (hword 1)

theorem write_kept_iff (addr value : Word) :
    Kept v (virtioBlkWrite env addr value v) ↔ WriteKeeps v.capacity addr value := by
  unfold WriteKeeps
  rw [capacity_low, capacity_high]
  by_cases hmem : regOf addr ∈ writeRegisters
  · rw [and_iff_left fun h => absurd hmem h]
    by_cases hstatus : regOf addr = 0x070
    · rw [virtioBlkWrite_status hstatus, updateStatus_kept_iff, forall_prop_of_true hstatus]
    · exact iff_of_true (virtioBlkWrite_register hmem hstatus value) fun h => absurd h hstatus
  · have hstatus : regOf addr ≠ 0x070 := by
      intro h
      rw [h] at hmem
      exact hmem (by decide)
    rw [and_iff_right fun h => absurd h hstatus, forall_prop_of_true hmem, virtioBlkWrite_config hmem, inConfig_iff]
    split_ifs with hin
    · have hmul : regOf addr = (addr >>> 2).toNat * 4 := rfl
      have h0 : (regOf addr - 0x100) / 4 = 0 ↔ regOf addr = 0x100 := by omega
      have h1 : (regOf addr - 0x100) / 4 = 1 ↔ regOf addr = 0x104 := by omega
      rw [update_kept_iff, and_iff_right hin, h0, h1]
    · exact iff_of_false (fun h => h.1 rfl) fun h => hin h.1

theorem virtioBlkRead_register {addr : Word} (hmem : regOf addr ∈ readRegisters) :
    Avoids .config (virtioBlkRead addr v) := by
  unfold virtioBlkRead
  unfold regOf at hmem
  generalize (addr >>> 2).toNat * 4 = reg at hmem ⊢
  split
  case h_11 =>
    exfalso
    simp only [readRegisters, List.mem_cons, List.not_mem_nil, or_false] at hmem
    rcases hmem with h | h | h | h | h | h | h | h | h | h
    all_goals contradiction
  all_goals exact avoids_pure _

theorem virtioBlkRead_config {addr : Word} (hmem : regOf addr ∉ readRegisters) :
    virtioBlkRead addr v =
      if h : 0x100 ≤ regOf addr ∧ (regOf addr - 0x100) / 4 < 17 then .ok (v.config ⟨(regOf addr - 0x100) / 4, h.2⟩)
      else .error .config := by
  unfold virtioBlkRead
  unfold regOf at hmem ⊢
  generalize (addr >>> 2).toNat * 4 = reg at hmem ⊢
  split
  case h_11 => rfl
  all_goals exact absurd (by decide) hmem

theorem read_avoids_iff (addr : Word) : Avoids .config (virtioBlkRead addr v) ↔ ReadKeeps addr := by
  unfold ReadKeeps
  by_cases hmem : regOf addr ∈ readRegisters
  · exact iff_of_true (virtioBlkRead_register hmem) fun h => absurd hmem h
  · rw [forall_prop_of_true hmem, virtioBlkRead_config hmem, inConfig_iff]
    split_ifs with hin
    · exact iff_of_true (avoids_ok _) hin
    · exact iff_of_false (fun h => h rfl) hin

/-- **One call.** -/
theorem exec_kept_iff (c : VblkCall) : Kept v (c.exec env v) ↔ c.Keeps v.capacity := by
  match c with
  | .op (.memory ram) => exact iff_of_true (kept_ok rfl) trivial
  | .op (.write addr value) => exact write_kept_iff addr value
  | .read addr =>
    change Kept v (virtioBlkRead addr v >>= fun _ => .ok v) ↔ ReadKeeps addr
    rw [← read_avoids_iff addr]
    cases virtioBlkRead addr v with
    | ok w => exact iff_of_true (kept_self v) (avoids_ok w)
    | error e =>
      refine ⟨fun h he => h.1 ?_, fun h => ⟨fun he => h ?_, fun v' hv' => nomatch hv'⟩⟩
      · cases he
        rfl
      · cases he
        rfl

end Step

/-! ## Runs -/

/-- Every state that the calls reach has the capacity of the first one, and no call leaves the configuration. -/
def CapacityKept (env : VblkEnv) (calls : List VblkCall) (v : VirtioBlk) : Prop :=
  ∀ pre, pre <+: calls → Kept v (vblkCalls env pre v)

/-- Each call that is made meets the condition, with the capacity it finds. -/
def CallsKeep (env : VblkEnv) : List VblkCall → VirtioBlk → Prop
  | [], _ => True
  | c :: cs, v => c.Keeps v.capacity ∧ ∀ v', c.exec env v = .ok v' → CallsKeep env cs v'

section Runs

variable {env : VblkEnv}

theorem vblkCalls_cons {c : VblkCall} {cs : List VblkCall} {v v1 : VirtioBlk} (h : c.exec env v = .ok v1) :
    vblkCalls env (c :: cs) v = vblkCalls env cs v1 := by
  rw [vblkCalls, h]
  rfl

theorem vblkCalls_single (c : VblkCall) (v : VirtioBlk) : vblkCalls env [c] v = c.exec env v := by
  unfold vblkCalls
  cases c.exec env v with
  | ok v1 => rfl
  | error e => rfl

theorem vblkCalls_error {c : VblkCall} {cs : List VblkCall} {v : VirtioBlk} {e : VblkFault}
    (h : c.exec env v = .error e) : vblkCalls env (c :: cs) v = .error e := by
  unfold vblkCalls
  rw [h]
  rfl

theorem kept_congr {v v1 : VirtioBlk} (h : v1.capacity = v.capacity) (x : VblkM VirtioBlk) : Kept v1 x ↔ Kept v x := by
  unfold Kept
  rw [h]

theorem capacityKept_cons (c : VblkCall) (cs : List VblkCall) (v : VirtioBlk) :
    CapacityKept env (c :: cs) v ↔
      Kept v (c.exec env v) ∧ ∀ v1, c.exec env v = .ok v1 → CapacityKept env cs v1 := by
  constructor
  · intro h
    have hstep : Kept v (c.exec env v) := by
      rw [← vblkCalls_single]
      exact h [c] (List.cons_prefix_cons.mpr ⟨rfl, List.nil_prefix⟩)
    refine ⟨hstep, fun v1 hexec pre hpre => ?_⟩
    rw [kept_congr (hstep.2 v1 hexec), ← vblkCalls_cons hexec]
    exact h (c :: pre) (List.cons_prefix_cons.mpr ⟨rfl, hpre⟩)
  · rintro ⟨hstep, hrest⟩ pre hpre
    rcases List.prefix_cons_iff.mp hpre with rfl | ⟨pre', rfl, hpre'⟩
    · exact kept_self v
    · cases hexec : c.exec env v with
      | error e =>
        rw [vblkCalls_error hexec, ← hexec]
        exact hstep
      | ok v1 =>
        rw [vblkCalls_cons hexec, ← kept_congr (hstep.2 v1 hexec)]
        exact hrest v1 hexec pre' hpre'

theorem callsKept_iff (calls : List VblkCall) (v : VirtioBlk) : CapacityKept env calls v ↔ CallsKeep env calls v := by
  induction calls generalizing v with
  | nil =>
    refine iff_of_true (fun pre hpre => ?_) trivial
    rw [List.prefix_nil.mp hpre]
    exact kept_self v
  | cons c cs ih =>
    rw [capacityKept_cons, exec_kept_iff]
    exact and_congr_right fun _ => forall_congr' fun v1 => imp_congr_right fun _ => ih v1

end Runs

/-- **The capacity is kept**, and every access lies in the configuration, exactly if each call sees to it: from the
device as it is initialised. -/
theorem capacityKept_iff (env : VblkEnv) (disk : Option (Bytes × BitVec 64)) (readonly : Bool) (ram : Bytes)
    (calls : List VblkCall) :
    CapacityKept env calls (virtioBlkInit disk readonly ram) ↔ CallsKeep env calls (virtioBlkInit disk readonly ram) :=
  callsKept_iff calls _

def smallDisk : VirtioBlk := virtioBlkInit (some (fun _ => 0, 512)) false fun _ => 0

/-- A disk of `2 ^ 32` sectors. -/
def largeDisk : VirtioBlk := virtioBlkInit (some (fun _ => 0, 0x20000000000)) false fun _ => 0

/-- The driver writes the capacity, reads a register that can only be written, or resets a disk whose capacity does not
fit 32 bits. -/
theorem capacity_not_kept :
    ¬ CapacityKept smallEnv [.op (.write 0x100 5)] smallDisk ∧ ¬ CapacityKept smallEnv [.read 0x014] smallDisk ∧
      ¬ CapacityKept smallEnv [.op (.write 0x070 0)] largeDisk := by
  refine ⟨fun h => ?_, fun h => ?_, fun h => ?_⟩
  · exact absurd ((h _ (List.prefix_refl _)).2 _ rfl) (by decide)
  · exact (h _ (List.prefix_refl _)).1 rfl
  · exact absurd ((h _ (List.prefix_refl _)).2 _ rfl) (by decide)

end Rv32emu
