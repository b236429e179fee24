import Rv32emu.Template

/-!
# The memory system of the `SYSTEM` builds

`system.c`: the Sv32 page-table walk, the two TLBs, the permission checks and the I/O callbacks the
handlers use in place of direct RAM accesses. A page fault runs the guest's trap handler before the
access returns, so every function here takes the trap to raise as a parameter.

* `SysEnv`, `Device` : the build, the size of guest RAM and the devices behind MMIO;
* `Sys`, `SysM` : `riscv_t` with the file-scope variables of a `SYSTEM` build, and the functions on
  it; `none` is a failed assertion, a point the source marks unreachable, or a nested handler that
  takes more steps than it has been given;
* `mmuWalk`, `pteFaults`, `Tlb.lookup`, `Tlb.populate`;
* `mmuTranslate`, `mmuIfetch`, `mmuRead`, `mmuWrite`.
-/

namespace Rv32emu

/-! ## Build and devices -/

inductive Device
  | plic | uart | vblk (i : Word) | rtc
  deriving DecidableEq, Repr

/-- A `SYSTEM` build without `JIT`. `elfLoader` distinguishes the two kinds: `SYSTEM_MMIO` is its
negation. The devices see the number of earlier calls into the host; they may change `csr_sip` and,
by DMA, guest memory. -/
structure SysEnv extends Env where
  elfLoader : Bool
  mopFusion : Bool
  memSize : Nat
  goldfishRtc : Bool
  vblkCnt : Nat
  vblkMmioBaseHi : Word
  vblkMmioMaxHi : Word
  mmioRead : Device → Nat → Word → Cpu → Word × Cpu
  mmioWrite : Device → Nat → Word → Word → Cpu → Cpu
  /-- The polling of UART and RTC in `rv_check_interrupt`. -/
  poll : Nat → Cpu → Cpu
  /-- `attr->timer`, the deadline of the supervisor timer. -/
  attrTimer : Nat → BitVec 64

/-- A `SYSTEM_MMIO` build without fusion, with 64 KiB of RAM and no device. -/
def deviceless : SysEnv :=
  { Env.bare false with
    elfLoader := false, mopFusion := false, memSize := 0x10000, goldfishRtc := false, vblkCnt := 0,
    vblkMmioBaseHi := 0, vblkMmioMaxHi := 0, mmioRead := fun _ _ _ s => (0, s),
    mmioWrite := fun _ _ _ _ s => s, poll := fun _ s => s, attrTimer := fun _ => BitVec.allOnes 64 }

/-- The `switch` of `MMIO_READ` and `MMIO_WRITE`. -/
def SysEnv.mmioDevice (env : SysEnv) (addr : Word) : Option Device :=
  if addr >>> 28 = 0xf then
    let hi := (addr >>> 20) &&& 0xff
    if env.vblkCnt ≠ 0 ∧ env.vblkMmioBaseHi ≤ hi ∧ hi ≤ env.vblkMmioMaxHi then
      some (.vblk (hi - env.vblkMmioBaseHi))
    else if hi = 0 ∨ hi = 2 then some .plic
    else if hi = 0x40 then some .uart
    else if hi = 0x41 ∧ env.goldfishRtc then some .rtc
    else none
  else none

def SysEnv.ramContains (env : SysEnv) (addr : Word) (size : Nat) : Bool :=
  addr.toNat < env.memSize && size ≤ env.memSize - addr.toNat

/-- A call into the host, which does not see the file-scope variables of `emulate.c`. -/
def Cpu.callHost (f : Nat → Cpu → Cpu) (s : Cpu) : Cpu :=
  { f s.host s with host := s.host + 1, isBranchTaken := s.isBranchTaken, lastPc := s.lastPc }

/-! ## State -/

/-- `tlb_entry_t`; a zeroed entry is `{}`. -/
structure TlbEntry where
  vpn : Word := 0
  /-- The page-aligned physical address. -/
  ppn : Word := 0
  pteAddr : Word := 0
  perm : Word := 0
  valid : Bool := false
  dirty : Bool := false
  level : Nat := 0
  deriving DecidableEq, Repr

abbrev Tlb := BitVec 6 → TlbEntry

/-- The machine of a `SYSTEM` build. The nested interpreter of `__trap_handler` never looks a block
up; what it does to the block engine is noted in `blockMapCleared` and `prevNull` and takes effect
when control is back in the engine. -/
structure Sys where
  cpu : Cpu
  isTrapped : Bool := false
  lastCsrSepc : Word := 0
  timerOffset : BitVec 64 := 0
  dtlb : Tlb := fun _ => {}
  itlb : Tlb := fun _ => {}
  needClearBlockMap : Bool := false
  needRetranslate : Bool := false
  needHandleSignal : Bool := false
  relocEnableMmu : Bool := false
  relocEnableMmuJalrAddr : Word := 0
  /-- `block_map_clear` has been called. -/
  blockMapCleared : Bool := false
  /-- `prev = NULL` has been executed. -/
  prevNull : Bool := false

abbrev SysM := StateT Sys Option

def modifyCpu (f : Cpu → Cpu) : SysM Unit := modify fun s => { s with cpu := f s.cpu }

inductive SysCause
  | insnMisaligned | illegalInsn | breakpoint | loadMisaligned | storeMisaligned | ecallU
  | pagefaultInsn | pagefaultLoad | pagefaultStore
  | supervisorSwIntr | supervisorTimerIntr | supervisorExternalIntr
  deriving DecidableEq, Repr

def SysCause.code : SysCause → Word
  | .insnMisaligned => 0
  | .illegalInsn => 2
  | .breakpoint => 3
  | .loadMisaligned => 4
  | .storeMisaligned => 6
  | .ecallU => 8
  | .pagefaultInsn => 12
  | .pagefaultLoad => 13
  | .pagefaultStore => 15
  | .supervisorSwIntr => 0x80000001
  | .supervisorTimerIntr => 0x80000005
  | .supervisorExternalIntr => 0x80000009

abbrev Raise := SysCause → Word → SysM Unit

/-! ## Page tables -/

namespace Pte

abbrev V : Word := 0x1
abbrev R : Word := 0x2
abbrev W : Word := 0x4
abbrev X : Word := 0x8
abbrev U : Word := 0x10
abbrev A : Word := 0x40
abbrev D : Word := 0x80

end Pte

inductive Access
  | fetch | read | write
  deriving DecidableEq, Repr

def Access.bit : Access → Word
  | .fetch => Pte.X
  | .read => Pte.R
  | .write => Pte.W

def Access.pagefault : Access → SysCause
  | .fetch => .pagefaultInsn
  | .read => .pagefaultLoad
  | .write => .pagefaultStore

/-- `PAGE_TABLE(ppn)`: the address of a table inside guest memory. -/
def pageTable (env : SysEnv) (ppn : Word) : Option Word :=
  if ppn.toNat < env.memSize / 4096 then some (ppn <<< 12) else none

/-- What `mmu_walk` does with an entry: a leaf, the next table, or `NULL`. -/
inductive WalkStep
  | leaf | table (ppn : Word) | null
  deriving DecidableEq, Repr

/-- The `switch` of `mmu_walk` on the entry found at `level`. -/
def walkStep (level : Nat) (pte : Word) : WalkStep :=
  let ppn := pte >>> 10
  match (pte &&& 0xf).toNat with
  | 0b0001 => .table ppn
  | 0b0011 | 0b0111 | 0b1001 | 0b1011 | 0b1111 =>
    if level = 1 ∧ ppn &&& 0x3ff ≠ 0 then .null else .leaf
  | _ => .null

/-- `mmu_walk`: the address of the leaf entry and its level. -/
def mmuWalk (env : SysEnv) (s : Cpu) (vaddr : Word) : Option (Word × Nat) := do
  let root ← pageTable env (s.csr.satp &&& 0x3fffff)
  let pte1 := root + 4 * ((vaddr >>> 22) &&& 0x3ff)
  match walkStep 1 (s.memReadW pte1) with
  | .leaf => return (pte1, 1)
  | .null => none
  | .table ppn =>
    let next ← pageTable env ppn
    let pte2 := next + 4 * ((vaddr >>> 12) &&& 0x3ff)
    match walkStep 2 (s.memReadW pte2) with
    | .leaf => return (pte2, 2)
    | .null => none
    -- the table a last-level entry points to is looked up and the loop ends
    | .table _ => none

/-- Whether `mmu_*_fault_check` raises a page fault for the entry `pte`. -/
def pteFaults (s : Cpu) (access : Access) (pte : Word) : Bool :=
  let mxr := s.csr.sstatus &&& 0x80000 ≠ 0
  let sum := s.csr.sstatus &&& 0x40000 ≠ 0
  pte &&& Pte.V = 0 ∨ pte &&& access.bit = 0 ∨
    (¬mxr ∧ pte &&& Pte.R = 0 ∧ access = .read) ∨
    (mxr ∧ (pte &&& Pte.R) ||| (pte &&& Pte.X) = 0 ∧ access = .read) ∨
    (s.privMode = 1 ∧ ¬sum ∧ pte &&& Pte.U ≠ 0)

/-- The physical address composed from an entry by `get_ppn_and_offset` and by the TLB lookups. -/
def physAddr (ppn : Word) (level : Nat) (vaddr : Word) : Word :=
  ppn ||| (vaddr &&& if level = 1 then 0x3fffff else 0xfff)

/-- `*pte >> 10 << 12`. -/
def ptePpn (pte : Word) : Word := (pte >>> 10) <<< 12

/-! ## TLBs -/

namespace Tlb

def index (vaddr : Word) : BitVec 6 := (vaddr >>> 12).setWidth 6

/-- The hit test of `dtlb_lookup` and `itlb_lookup`. -/
def lookup (t : Tlb) (vaddr : Word) (access : Access) : Option TlbEntry :=
  let entry := t (index vaddr)
  if entry.valid ∧ entry.vpn = vaddr >>> 12 ∧ entry.perm &&& access.bit ≠ 0 then some entry else none

def populate (t : Tlb) (vaddr pteAddr pte : Word) (level : Nat) : Tlb :=
  Function.update t (index vaddr)
    { vpn := vaddr >>> 12, ppn := ptePpn pte, pteAddr, perm := pte &&& 0x1e, valid := true,
      dirty := pte &&& Pte.D ≠ 0, level }

/-- One half of `mmu_tlb_flush`. -/
def flush (t : Tlb) (vaddr : Word) : Tlb :=
  let idx := index vaddr
  if (t idx).valid ∧ (t idx).vpn = vaddr >>> 12 then
    Function.update t idx { t idx with valid := false }
  else t

end Tlb

def Sys.tlbFlushAll (s : Sys) : Sys := { s with dtlb := fun _ => {}, itlb := fun _ => {} }

def Sys.tlbFlush (s : Sys) (vaddr : Word) : Sys :=
  { s with dtlb := s.dtlb.flush vaddr, itlb := s.itlb.flush vaddr }

def setPteBits (pteAddr bits : Word) : SysM Unit :=
  modifyCpu fun s => s.memWriteW pteAddr (s.memReadW pteAddr ||| bits)

/-- `dtlb_lookup`; a write that hits a clean entry sets the dirty bit of its page-table entry. -/
def dtlbLookup (vaddr : Word) (access : Access) : SysM (Option Word) := do
  match (← get).dtlb.lookup vaddr access with
  | none => return none
  | some entry =>
    if access = .write ∧ !entry.dirty then
      setPteBits entry.pteAddr Pte.D
      modify fun s =>
        { s with dtlb := Function.update s.dtlb (Tlb.index vaddr) { entry with dirty := true } }
    return some (physAddr entry.ppn entry.level vaddr)

def itlbLookup (vaddr : Word) : SysM (Option Word) := do
  let entry := (← get).itlb.lookup vaddr .fetch
  return entry.map fun e => physAddr e.ppn e.level vaddr

/-! ## Translation -/

def mmuFaultCheck (raise : Raise) (access : Access) (walk : Option (Word × Nat)) (vaddr : Word) :
    SysM Bool := do
  let s := (← get).cpu
  match walk with
  | some (pteAddr, _) =>
    if pteFaults s access (s.memReadW pteAddr) then
      raise access.pagefault vaddr
      return false
    else return true
  | none =>
    raise access.pagefault vaddr
    return false

/-- After a fault of a `SYSTEM_MMIO` build, `CHECK_PENDING_SIGNAL`; the result says whether the access
is given up. -/
def checkPendingSignal (env : SysEnv) : SysM Bool := do
  if env.elfLoader then return false
  else
    modify fun s => { s with needHandleSignal := s.cpu.csr.sepc ≠ s.lastCsrSepc }
    return (← get).needHandleSignal

/-- The walk of `mmu_translate` with its second attempt after a page fault. -/
def translateWalk (env : SysEnv) (raise : Raise) (vaddr : Word) (access : Access) :
    SysM (Option (Word × Nat)) := do
  let walk := mmuWalk env (← get).cpu vaddr
  if ← mmuFaultCheck raise access walk vaddr then return walk
  else if ← checkPendingSignal env then return none
  else
    let walk := mmuWalk env (← get).cpu vaddr
    if ← mmuFaultCheck raise access walk vaddr then return walk
    else
      modify fun s =>
        { s with needRetranslate := s.needRetranslate || env.elfLoader, needHandleSignal := true }
      return none

/-- `mmu_translate`; an access that is given up gets the address 0. -/
def mmuTranslate (env : SysEnv) (raise : Raise) (vaddr : Word) (access : Access) : SysM Word := do
  if (← get).cpu.csr.satp = 0 then return vaddr
  else match ← dtlbLookup vaddr access with
    | some paddr => return paddr
    | none =>
      match ← translateWalk env raise vaddr access with
      | none => return 0
      | some (pteAddr, level) =>
        setPteBits pteAddr (if access = .write then Pte.A ||| Pte.D else Pte.A)
        let pte := (← get).cpu.memReadW pteAddr
        modify fun s => { s with dtlb := s.dtlb.populate vaddr pteAddr pte level }
        return physAddr (ptePpn pte) level vaddr

/-- `pte && MMU_FAULT_CHECK(ifetch, ..)`: the second check of `mmu_ifetch` is skipped if there is no
entry. -/
def ifetchRecheck (raise : Raise) (walk : Option (Word × Nat)) (vaddr : Word) : SysM Bool := do
  if walk.isNone then return false else mmuFaultCheck raise .fetch walk vaddr

def ifetchWalk (env : SysEnv) (raise : Raise) (vaddr : Word) : SysM (Option (Word × Nat)) := do
  let walk := mmuWalk env (← get).cpu vaddr
  if ← mmuFaultCheck raise .fetch walk vaddr then return walk
  else if ← checkPendingSignal env then return none
  else
    let walk := mmuWalk env (← get).cpu vaddr
    if ← ifetchRecheck raise walk vaddr then return walk
    else
      modify fun s => { s with needRetranslate := true, needHandleSignal := true }
      return none

def mmuIfetch (env : SysEnv) (raise : Raise) (vaddr : Word) : SysM Word := do
  let s ← get
  if s.cpu.csr.satp = 0 then return s.cpu.ifetch vaddr
  else if s.needRetranslate then return 0
  else match ← itlbLookup vaddr with
    | some paddr => return (← get).cpu.ifetch paddr
    | none =>
      match ← ifetchWalk env raise vaddr with
      | none => return 0
      | some (pteAddr, level) =>
        setPteBits pteAddr Pte.A
        let pte := (← get).cpu.memReadW pteAddr
        modify fun s => { s with itlb := s.itlb.populate vaddr pteAddr pte level }
        return (← get).cpu.ifetch (physAddr (ptePpn pte) level vaddr)

/-! ## The I/O callbacks -/

/-- The flag after which `mmu_read_*` and `mmu_write_*` give the access up. -/
def Sys.givenUp (env : SysEnv) (s : Sys) : Bool :=
  if env.elfLoader then s.needRetranslate else s.needHandleSignal

/-- What `read` makes of a value that does not come from RAM. -/
def readValue (read : Cpu → Word → Word) (s : Cpu) (addr value : Word) : Word :=
  read { s with mem := Mem.writeW (fun _ => 0) (memOff addr) value } addr

/-- `mmu_read_w`, `mmu_read_s` and `mmu_read_b` with the extension the handler applies; an access that
is given up reads 0. -/
def mmuRead (env : SysEnv) (raise : Raise) (size : Nat) (read : Cpu → Word → Word) (vaddr : Word) :
    SysM Word := do
  let addr ← mmuTranslate env raise vaddr .read
  let s ← get
  if s.givenUp env then return readValue read s.cpu addr 0
  else if env.ramContains addr size then return read s.cpu addr
  else if env.elfLoader then failure
  else match env.mmioDevice addr with
    | none => failure
    | some dev =>
      let value := (env.mmioRead dev s.cpu.host addr s.cpu).1
      modifyCpu (Cpu.callHost fun n s => (env.mmioRead dev n addr s).2)
      return readValue read s.cpu addr value

/-- `mmu_write_w`, `mmu_write_s` and `mmu_write_b`; a device sees the value at the width of the store. -/
def mmuWrite (env : SysEnv) (raise : Raise) (size : Nat) (write : Cpu → Word → Word → Cpu)
    (vaddr value : Word) : SysM Unit := do
  let addr ← mmuTranslate env raise vaddr .write
  let s ← get
  if s.givenUp env then return ()
  else if env.ramContains addr size then modifyCpu fun s => write s addr value
  else if env.elfLoader then failure
  else match env.mmioDevice addr with
    | none => failure
    | some dev =>
      let value := (value.setWidth (8 * size)).setWidth 32
      modifyCpu (Cpu.callHost fun n s => env.mmioWrite dev n addr value s)

end Rv32emu
