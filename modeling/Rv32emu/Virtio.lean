import Rv32emu.Insn

/-!
# The virtio block device

`devices/virtio-blk.c`: the MMIO registers, the walk over a descriptor chain and the notification of a queue.

* `Bytes` : guest RAM and the disk image, by offset;
* `VirtioBlk` : `virtio_blk_state_t` with `struct virtio_blk_config`;
* `virtioBlkDescHandler`, `notifyTurn`, `virtioQueueNotifyHandler` : an access outside guest RAM or the disk and
  a division by a zero `queue_num` end the process (`VblkFault`);
* `virtioBlkWrite` : the registers; `VblkOp`, `vblkRun` : accesses of the driver and changes of guest memory;
* `virtioBlkRead`, `virtioBlkInit` : the registers that are read and the device at the start;
* `twoPending` : a device with two requests in its queue.
-/

namespace Rv32emu

/-! ## Memory -/

abbrev Bytes := Nat → BitVec 8

namespace Bytes

def half (m : Bytes) (a : Nat) : BitVec 16 := m (a + 1) ++ m a

def word (m : Bytes) (a : Nat) : Word := m (a + 3) ++ m (a + 2) ++ m (a + 1) ++ m a

def dword (m : Bytes) (a : Nat) : BitVec 64 := m.word (a + 4) ++ m.word a

def put (m : Bytes) (a : Nat) (v : BitVec 8) : Bytes := fun i => if i = a then v else m i

def putWord (m : Bytes) (a : Nat) (v : Word) : Bytes := fun i =>
  if a ≤ i ∧ i < a + 4 then v.extractLsb' (8 * (i - a)) 8 else m i

/-- `memcpy`. -/
def copy (dst : Bytes) (dest : Nat) (src : Bytes) (start len : Nat) : Bytes := fun i =>
  if dest ≤ i ∧ i < dest + len then src (start + (i - dest)) else dst i

end Bytes

/-- The `len` bytes from `off` on lie in an object of `size` bytes. -/
def inside (off len size : Nat) : Bool := len = 0 || off + len ≤ size

/-! ## The device -/

/-- How an operation of the device ends the process. -/
inductive VblkFault
  /-- An access outside guest RAM or the disk image. -/
  | outside
  | divByZero
  /-- An access outside `struct virtio_blk_config`. -/
  | config
  deriving DecidableEq

/-- `MEM_SIZE` and the size of the disk image, in bytes. -/
structure VblkEnv where
  memSize : Nat
  diskSize : Nat

/-- `virtio_blk_queue_t`; the three addresses count words. -/
structure VirtioBlkQueue where
  queueNum : Word := 0
  queueDesc : Word := 0
  queueAvail : Word := 0
  queueUsed : Word := 0
  lastAvail : BitVec 16 := 0
  ready : Bool := false
  deriving DecidableEq

structure VirtioBlk where
  deviceFeatures : Word := 0
  deviceFeaturesSel : Word := 0
  driverFeatures : Word := 0
  driverFeaturesSel : Word := 0
  queueSel : Fin 2 := 0
  queues : Fin 2 → VirtioBlkQueue := fun _ => {}
  status : Word := 0
  interruptStatus : Word := 0
  ram : Bytes
  disk : Bytes
  /-- The 17 words of `struct virtio_blk_config`; the first two are the capacity. -/
  config : Fin 17 → Word

namespace VirtioBlk

def capacity (v : VirtioBlk) : BitVec 64 := v.config 1 ++ v.config 0

def setQueue (v : VirtioBlk) (i : Fin 2) (q : VirtioBlkQueue) : VirtioBlk :=
  { v with queues := Function.update v.queues i q }

def driverOk (v : VirtioBlk) : Bool := v.status &&& 4 ≠ 0

/-- `VIRTIO_STATUS_DEVICE_NEEDS_RESET`. -/
def needsReset (v : VirtioBlk) : Bool := v.status &&& 64 ≠ 0

def setFail (v : VirtioBlk) : VirtioBlk :=
  let v := { v with status := v.status ||| 64 }
  if v.driverOk then { v with interruptStatus := v.interruptStatus ||| 2 } else v

end VirtioBlk

abbrev VblkM (α : Type) := Except VblkFault α

section Device

variable (env : VblkEnv)

def vblkPreprocess (addr : Word) (v : VirtioBlk) : Word × VirtioBlk :=
  if env.memSize ≤ addr.toNat ∨ addr &&& 3 ≠ 0 then (0, v.setFail) else (addr >>> 2, v)

/-- `virtio_blk_update_status`. A reset keeps 32 bits of the capacity. -/
def virtioBlkUpdateStatus (status : Word) (v : VirtioBlk) : VirtioBlk :=
  if status ≠ 0 then { v with status := v.status ||| status }
  else { deviceFeatures := v.deviceFeatures, ram := v.ram, disk := v.disk,
         config := Function.update v.config 1 0 }

/-! ### Accesses -/

def ramWord (i : Word) (v : VirtioBlk) : VblkM Word :=
  if inside (4 * i.toNat) 4 env.memSize then .ok (v.ram.word (4 * i.toNat)) else .error .outside

/-- `ram[i] = w`. -/
def setRamWord (i w : Word) (v : VirtioBlk) : VblkM VirtioBlk :=
  if inside (4 * i.toNat) 4 env.memSize then .ok { v with ram := v.ram.putWord (4 * i.toNat) w }
  else .error .outside

structure VirtqDesc where
  addr : BitVec 64
  len : Word
  flags : BitVec 16
  next : BitVec 16
  deriving DecidableEq

def VirtqDesc.hasNext (d : VirtqDesc) : Bool := d.flags &&& 1 ≠ 0

/-- The descriptor at an offset into guest RAM. -/
def Bytes.desc (m : Bytes) (off : Nat) : VirtqDesc :=
  ⟨m.dword off, m.word (off + 8), m.half (off + 12), m.half (off + 14)⟩

/-- The offset of `ram[queue->queue_desc + desc_idx * 4]`. -/
def VirtioBlkQueue.descOff (queue : VirtioBlkQueue) (idx : BitVec 16) : Nat :=
  4 * (queue.queueDesc + idx.setWidth 32 * 4).toNat

def readDesc (queue : VirtioBlkQueue) (idx : BitVec 16) (v : VirtioBlk) : VblkM VirtqDesc :=
  if inside (queue.descOff idx) 16 env.memSize then .ok (v.ram.desc (queue.descOff idx)) else .error .outside

def readHeader (addr : BitVec 64) (v : VirtioBlk) : VblkM (Word × BitVec 64) :=
  if inside addr.toNat 16 env.memSize then .ok (v.ram.word addr.toNat, v.ram.dword (addr.toNat + 8))
  else .error .outside

def setStatus (addr : BitVec 64) (s : BitVec 8) (v : VirtioBlk) : VblkM VirtioBlk :=
  if inside addr.toNat 1 env.memSize then .ok { v with ram := v.ram.put addr.toNat s } else .error .outside

/-- The offset of a sector, in 64 bits. -/
def sectorOff (sector : BitVec 64) : Nat := (sector * 512).toNat

def virtioBlkWriteHandler (sector descAddr : BitVec 64) (len : Word) (v : VirtioBlk) : VblkM VirtioBlk :=
  if inside descAddr.toNat len.toNat env.memSize && inside (sectorOff sector) len.toNat env.diskSize then
    .ok { v with disk := v.disk.copy (sectorOff sector) v.ram descAddr.toNat len.toNat }
  else .error .outside

def virtioBlkReadHandler (sector descAddr : BitVec 64) (len : Word) (v : VirtioBlk) : VblkM VirtioBlk :=
  if inside descAddr.toNat len.toNat env.memSize && inside (sectorOff sector) len.toNat env.diskSize then
    .ok { v with ram := v.ram.copy descAddr.toNat v.disk (sectorOff sector) len.toNat }
  else .error .outside

/-! ### Requests -/

/-- The first two descriptors have a successor and the third has none. -/
def validChain (d0 d1 d2 : VirtqDesc) : Bool := d0.hasNext && d1.hasNext && !d2.hasNext

/-- A request whose three descriptors are `d0`, `d1` and `d2`; the length on success. -/
def handleChain (d0 d1 d2 : VirtqDesc) (v : VirtioBlk) : VblkM (Option Word × VirtioBlk) := do
  let (type, sector) ← readHeader env d0.addr v
  if v.capacity - 1 < sector then
    return (none, ← setStatus env d2.addr 1 v)
  if type = 0 then
    let v ← virtioBlkReadHandler env sector d1.addr d1.len v
    return (some d1.len, ← setStatus env d2.addr 0 v)
  if type = 1 then
    -- `VIRTIO_BLK_F_RO`
    if v.deviceFeatures &&& 0x20 ≠ 0 then
      return (none, ← setStatus env d2.addr 1 v)
    let v ← virtioBlkWriteHandler env sector d1.addr d1.len v
    return (some d1.len, ← setStatus env d2.addr 0 v)
  return (none, ← setStatus env d2.addr 2 v)

def virtioBlkDescHandler (queue : VirtioBlkQueue) (idx : BitVec 16) (v : VirtioBlk) :
    VblkM (Option Word × VirtioBlk) := do
  let d0 ← readDesc env queue idx v
  let d1 ← readDesc env queue d0.next v
  let d2 ← readDesc env queue d1.next v
  if validChain d0 d1 d2 then handleChain env d0 d1 d2 v
  else return (none, v.setFail)

/-! ### Notifications -/

def VirtioBlkQueue.slot (queue : VirtioBlkQueue) (idx : BitVec 16) : VblkM Nat :=
  if queue.queueNum = 0 then .error .divByZero else .ok (idx.toNat % queue.queueNum.toNat)

/-- The word of the available ring that holds the entry of a slot. -/
def VirtioBlkQueue.availWord (queue : VirtioBlkQueue) (slot : Nat) : Word :=
  queue.queueAvail + 1 + BitVec.ofNat 32 (slot / 2)

/-- The first word of the used element of a slot. -/
def VirtioBlkQueue.usedWord (queue : VirtioBlkQueue) (slot : Nat) : Word :=
  queue.queueUsed + 1 + BitVec.ofNat 32 slot * 2

/-- `buffer_idx`, from the word of the available ring. -/
def bufferIdx (w : Word) (slot : Nat) : BitVec 16 := (w >>> (16 * (slot % 2))).setWidth 16

/-- One turn of the loop of `virtio_queue_notify_handler`; `false` if the request has failed. -/
def notifyTurn (index : Fin 2) (newUsed : BitVec 16) (v : VirtioBlk) : VblkM (Bool × VirtioBlk) := do
  let queue := v.queues index
  let slot ← queue.slot queue.lastAvail
  let idx := bufferIdx (← ramWord env (queue.availWord slot) v) slot
  match ← virtioBlkDescHandler env queue idx v with
  | (none, v) => return (false, v.setFail)
  | (some len, v) =>
    let used := queue.usedWord (← queue.slot newUsed)
    let v ← setRamWord env used (idx.setWidth 32) v
    let v ← setRamWord env (used + 1) len v
    return (true, v.setQueue index { queue with lastAvail := queue.lastAvail + 1 })

/-- `while (queue->last_avail != new_avail)`, which runs `n` times at most; the new index of the used ring,
unless a request has failed. -/
def notifyLoop (index : Fin 2) (newAvail : BitVec 16) : Nat → BitVec 16 → VirtioBlk →
    VblkM (Option (BitVec 16) × VirtioBlk)
  | 0, newUsed, v => return (some newUsed, v)
  | n + 1, newUsed, v =>
    if (v.queues index).lastAvail = newAvail then return (some newUsed, v)
    else do
      let (ok, v) ← notifyTurn env index newUsed v
      if ok then notifyLoop index newAvail n (newUsed + 1) v else return (none, v)

/-- The upper half of the first word of a ring. -/
def ringIdx (w : Word) : BitVec 16 := (w >>> 16).setWidth 16

/-- `idx` of the used ring is published and, unless the driver does not want it, an interrupt is raised. -/
def publishUsed (queue : VirtioBlkQueue) (newUsed : BitVec 16) (v : VirtioBlk) : VblkM VirtioBlk := do
  let w ← ramWord env queue.queueUsed v
  let v ← setRamWord env queue.queueUsed ((w &&& 0xffff) ||| newUsed.setWidth 32 <<< 16) v
  let a ← ramWord env queue.queueAvail v
  return if a &&& 1 = 0 then { v with interruptStatus := v.interruptStatus ||| 1 } else v

/-- `new_avail - queue->last_avail > (uint16_t) queue->queue_num`, in `int`. -/
def sizeCheckFails (queue : VirtioBlkQueue) (newAvail : BitVec 16) : Bool :=
  ((queue.queueNum.setWidth 16).toNat : Int) < newAvail.toNat - queue.lastAvail.toNat

def virtioQueueNotifyHandler (index : Fin 2) (v : VirtioBlk) : VblkM VirtioBlk := do
  let queue := v.queues index
  if v.needsReset then return v
  if !(v.driverOk && queue.ready) then return v.setFail
  let newAvail := ringIdx (← ramWord env queue.queueAvail v)
  if sizeCheckFails queue newAvail then return v.setFail
  if queue.lastAvail = newAvail then return v
  let newUsed := ringIdx (← ramWord env queue.queueUsed v)
  match ← notifyLoop env index newAvail (newAvail - queue.lastAvail).toNat newUsed v with
  | (none, v) => return v
  | (some newUsed, v) => publishUsed env queue newUsed v

/-! ### Registers -/

def VirtioBlk.queue (v : VirtioBlk) : VirtioBlkQueue := v.queues v.queueSel

/-- A write to the high half of a queue address. -/
def writeHigh (value : Word) (v : VirtioBlk) : VirtioBlk := if value ≠ 0 then v.setFail else v

/-- `virtio_blk_write`, by the number of the register. -/
def virtioBlkWrite (addr value : Word) (v : VirtioBlk) : VblkM VirtioBlk :=
  match (addr >>> 2).toNat * 4 with
  | 0x014 => return { v with deviceFeaturesSel := value }
  | 0x020 => return if v.driverFeaturesSel = 0 then { v with driverFeatures := value } else v
  | 0x024 => return { v with driverFeaturesSel := value }
  | 0x030 => return if h : value.toNat < 2 then { v with queueSel := ⟨value.toNat, h⟩ } else v.setFail
  | 0x038 => return if 0 < value.toNat ∧ value.toNat ≤ 1024 then
      v.setQueue v.queueSel { v.queue with queueNum := value } else v.setFail
  | 0x044 => do
    let v1 := v.setQueue v.queueSel { v.queue with ready := value.getLsbD 0 }
    if value.getLsbD 0 then
      let w ← ramWord env v.queue.queueAvail v
      return v1.setQueue v.queueSel { v1.queue with lastAvail := ringIdx w }
    else return v1
  | 0x080 =>
    let (base, v) := vblkPreprocess env value v
    return v.setQueue v.queueSel { v.queue with queueDesc := base }
  | 0x084 | 0x094 | 0x0a4 => return writeHigh value v
  | 0x090 =>
    let (base, v) := vblkPreprocess env value v
    return v.setQueue v.queueSel { v.queue with queueAvail := base }
  | 0x0a0 =>
    let (base, v) := vblkPreprocess env value v
    return v.setQueue v.queueSel { v.queue with queueUsed := base }
  | 0x050 => if h : value.toNat < 2 then virtioQueueNotifyHandler env ⟨value.toNat, h⟩ v else return v.setFail
  | 0x064 => return { v with interruptStatus := v.interruptStatus &&& ~~~value }
  | 0x070 => return virtioBlkUpdateStatus value v
  | reg =>
    -- `addr - _(Config)` wraps around below the configuration space
    if h : 0x100 ≤ reg ∧ (reg - 0x100) / 4 < 17 then
      return { v with config := Function.update v.config ⟨(reg - 0x100) / 4, h.2⟩ value }
    else .error .config

inductive VblkOp
  /-- Guest memory is changed. -/
  | memory (ram : Bytes)
  | write (addr value : Word)

def VblkOp.exec (v : VirtioBlk) : VblkOp → VblkM VirtioBlk
  | .memory ram => .ok { v with ram }
  | .write addr value => virtioBlkWrite env addr value v

def vblkRun : List VblkOp → VirtioBlk → VblkM VirtioBlk
  | [], v => .ok v
  | op :: ops, v => do vblkRun ops (← op.exec env v)

end Device

/-- `virtio_blk_read`, by the number of the register. -/
def virtioBlkRead (addr : Word) (v : VirtioBlk) : VblkM Word :=
  match (addr >>> 2).toNat * 4 with
  | 0x000 => return 0x74726976
  | 0x004 => return 2
  | 0x008 => return 2
  | 0x00c => return 0x12345678
  | 0x010 => return if v.deviceFeaturesSel = 0 then v.deviceFeatures else if v.deviceFeaturesSel = 1 then 1 else 0
  | 0x034 => return 1024
  | 0x044 => return if v.queue.ready then 1 else 0
  | 0x060 => return v.interruptStatus
  | 0x070 => return v.status
  | 0x0fc => return 0
  | reg =>
    -- `addr - _(Config)` wraps around below the configuration space
    if h : 0x100 ≤ reg ∧ (reg - 0x100) / 4 < 17 then return v.config ⟨(reg - 0x100) / 4, h.2⟩
    else .error .config

/-- The words of `struct virtio_blk_config` that the device sets. -/
def blkConfig (capacity diskSize : BitVec 64) (i : Fin 17) : Word :=
  if i.val < 2 then capacity.extractLsb' (32 * i.val) 32
  else if 15 ≤ i.val then diskSize.extractLsb' (32 * (i.val - 15)) 32
  else 0

/-- `virtio_blk_init`, on the image of the disk and its size, if a disk is given. -/
def virtioBlkInit (disk : Option (Bytes × BitVec 64)) (readonly : Bool) (ram : Bytes) : VirtioBlk :=
  match disk with
  | none => { ram, disk := fun _ => 0, config := blkConfig 0 0 }
  | some (image, size) =>
    { deviceFeatures := if readonly then 0x20 else 0, ram, disk := image,
      config := blkConfig ((size - 1) / 512 + 1) size }

/-! ## A small device -/

def ramOf (words : List (Nat × Word)) : Bytes := words.foldl (fun m w => m.putWord w.1 w.2) fun _ => 0

def smallEnv : VblkEnv := { memSize := 4096, diskSize := 512 }

/-- The device after `virtio_blk_init`, with a disk of one sector. -/
def vblkReset : VirtioBlk :=
  { ram := fun _ => 0, disk := fun _ => 0, config := fun i => if i = 0 then 1 else 0 }

/-- The driver sets up a queue of four entries: descriptors at 0, the available ring at 256, the used ring
at 512. -/
def vblkSetup : List VblkOp :=
  [.write 0x038 4, .write 0x080 0, .write 0x090 256, .write 0x0a0 512, .write 0x044 1, .write 0x070 4]

/-- Two requests: a read of 16 bytes with the descriptors 0, 1 and 2, and descriptor 3, which has no
successor. -/
def twoRequests : Bytes := ramOf
  [(0, 1024), (8, 16), (12, 0x00010001), (16, 2048), (24, 16), (28, 0x00020003), (32, 3000), (40, 1), (44, 2),
   (256, 0x00020000), (260, 0x00030000)]

def twoPending : VirtioBlk :=
  { vblkReset with
    queues := Function.update (fun _ => {}) 0
      { queueNum := 4, queueAvail := 64, queueUsed := 128, ready := true }
    status := 4
    ram := twoRequests }

end Rv32emu
