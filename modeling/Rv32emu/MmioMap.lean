import Rv32emu.Mmu

/-!
# The MMIO windows

`MMIO_READ` and `MMIO_WRITE` of `system.h`, with the virtio window that `load_dtb` computes.

* `scanSoc`, `loadDtb` : the first free address behind the nodes of the device tree, and the window;
* `SysEnv.Booted` : a `SYSTEM_MMIO` build after `load_dtb`;
* `mmuReadAt`, `mmuWriteAt` : the accesses behind the translation; `SysEnv.HandsTo` : a device gets the access;
* `mmioDevice_eq` : the device that the macros select, in terms of the number of block devices;
* `mmio_handed_iff` : the addresses at which a device that exists gets the access.
-/

namespace Rv32emu

/-! ## The device tree -/

def vblkBaseAddr : Word := 0x4000000
def vblkAddrOffset : Word := 0x100000

/-- The loop over the subnodes of `/soc`, by the numbers behind `@`; `none` is no number. -/
def scanSoc : List (Option Word) → Word → Option Word
  | [], nextAddr => some nextAddr
  | none :: _, _ => none
  | some addr :: nodes, nextAddr => scanSoc nodes (if addr = nextAddr then addr + vblkAddrOffset else nextAddr)

/-- The subnodes in `minimal.dts`. A build without the RTC deletes its node first. -/
def socNodes (goldfishRtc : Bool) : List (Option Word) :=
  [some 0, some 0x4000000] ++ if goldfishRtc then [some 0x4100000] else []

/-- What `load_dtb` sets in `vm_attr_t`. -/
structure VblkRange where
  vblkCnt : Nat := 0
  vblkMmioBaseHi : Word := 0
  vblkMmioMaxHi : Word := 0
  deriving DecidableEq

/-- `load_dtb` for `cnt` block devices; without one there is nothing to set. -/
def loadDtb (goldfishRtc : Bool) (cnt : Nat) : VblkRange :=
  if cnt = 0 then {}
  else match scanSoc (socNodes goldfishRtc) vblkBaseAddr with
    | none => {}
    | some nextAddr =>
      let baseHi := nextAddr >>> 20
      { vblkCnt := cnt, vblkMmioBaseHi := baseHi, vblkMmioMaxHi := baseHi + BitVec.ofNat 32 cnt }

/-- A `SYSTEM_MMIO` build with its device tree; the number of devices is an `int`. -/
structure SysEnv.Booted (env : SysEnv) : Prop where
  mmio : env.elfLoader = false
  int : env.vblkCnt < 2 ^ 31
  range : loadDtb env.goldfishRtc env.vblkCnt = ⟨env.vblkCnt, env.vblkMmioBaseHi, env.vblkMmioMaxHi⟩

/-! ## Accesses behind the translation -/

/-- `mmu_read_w`, `mmu_read_s` and `mmu_read_b` at the physical address `addr`. -/
def mmuReadAt (env : SysEnv) (size : Nat) (read : Cpu → Word → Word) (addr : Word) : SysM Word := do
  let s ← get
  if s.givenUp env then return readValue read s.cpu addr 0
  else if env.ramContains addr size then return read s.cpu addr
  else if env.elfLoader then failure
  else match env.mmioDevice addr with
    | none => failure
    | some dev =>
      let value := (env.mmioRead dev s.cpu.host addr s.cpu).1
      modifyCpu (Cpu.callHost fun n s => (env.mmioRead dev n addr s).2)
      return readValue read s.cpu addr value

/-- `mmu_write_w`, `mmu_write_s` and `mmu_write_b` at the physical address `addr`. -/
def mmuWriteAt (env : SysEnv) (size : Nat) (write : Cpu → Word → Word → Cpu) (addr value : Word) : SysM Unit := do
  let s ← get
  if s.givenUp env then return ()
  else if env.ramContains addr size then modifyCpu fun s => write s addr value
  else if env.elfLoader then failure
  else match env.mmioDevice addr with
    | none => failure
    | some dev =>
      let value := (value.setWidth (8 * size)).setWidth 32
      modifyCpu (Cpu.callHost fun n s => env.mmioWrite dev n addr value s)

theorem mmuRead_eq (env : SysEnv) (raise : Raise) (size : Nat) (read : Cpu → Word → Word) (vaddr : Word) :
    mmuRead env raise size read vaddr = mmuTranslate env raise vaddr .read >>= mmuReadAt env size read := rfl

theorem mmuWrite_eq (env : SysEnv) (raise : Raise) (size : Nat) (write : Cpu → Word → Word → Cpu)
    (vaddr value : Word) :
    mmuWrite env raise size write vaddr value =
      mmuTranslate env raise vaddr .write >>= fun addr => mmuWriteAt env size write addr value := rfl

def SysEnv.HasDevice (env : SysEnv) : Device → Prop
  | .vblk i => i.toNat < env.vblkCnt
  | .rtc => env.goldfishRtc = true
  | .plic | .uart => True

def Sys.called (s : Sys) (f : Nat → Cpu → Cpu) : Sys := { s with cpu := s.cpu.callHost f }

/-- Loads and stores of `size` bytes at `addr` are handed to `dev`. -/
structure SysEnv.HandsTo (env : SysEnv) (size : Nat) (addr : Word) (s : Sys) (dev : Device) : Prop where
  selected : env.mmioDevice addr = some dev
  read : ∀ read, mmuReadAt env size read addr s =
    some (readValue read s.cpu addr (env.mmioRead dev s.cpu.host addr s.cpu).1,
      s.called fun n s => (env.mmioRead dev n addr s).2)
  write : ∀ write value, mmuWriteAt env size write addr value s =
    some ((), s.called fun n s => env.mmioWrite dev n addr ((value.setWidth (8 * size)).setWidth 32) s)

def mmioHi (addr : Word) : Word := (addr >>> 20) &&& 0xff

/-- The first megabyte behind the nodes of the device tree. -/
def SysEnv.firstVblk (env : SysEnv) : Nat := if env.goldfishRtc then 0x42 else 0x41

def SysEnv.InWindow (env : SysEnv) (addr : Word) : Prop :=
  addr >>> 28 = 0xf ∧
    (mmioHi addr = 0 ∨ mmioHi addr = 2 ∨ mmioHi addr = 0x40 ∨ (mmioHi addr = 0x41 ∧ env.goldfishRtc = true) ∨
      (env.firstVblk ≤ (mmioHi addr).toNat ∧ (mmioHi addr).toNat < env.firstVblk + env.vblkCnt))

section Windows

variable {env : SysEnv} {size : Nat} {addr : Word} {s : Sys}

theorem mmioHi_lt (addr : Word) : (mmioHi addr).toNat < 0x100 := by
  unfold mmioHi
  rw [BitVec.toNat_and]
  exact Nat.lt_of_le_of_lt Nat.and_le_right (by decide)

theorem loadDtb_range (goldfishRtc : Bool) {cnt : Nat} (h : cnt ≠ 0) :
    loadDtb goldfishRtc cnt =
      let baseHi : Word := if goldfishRtc then 0x42 else 0x41
      ⟨cnt, baseHi, baseHi + BitVec.ofNat 32 cnt⟩ := by
  unfold loadDtb
  rw [if_neg h]
  cases goldfishRtc <;> rfl

/-- The test of the macros for a block device, without overflow. -/
theorem SysEnv.Booted.vblk_iff (h : env.Booted) {hi : Word} (hcnt : env.vblkCnt ≠ 0) :
    (env.vblkMmioBaseHi ≤ hi ∧ hi ≤ env.vblkMmioMaxHi) ↔
      env.firstVblk ≤ hi.toNat ∧ hi.toNat ≤ env.firstVblk + env.vblkCnt := by
  have hrange := h.range
  have hint := h.int
  rw [loadDtb_range _ hcnt, VblkRange.mk.injEq] at hrange
  obtain ⟨-, hbase, hmax⟩ := hrange
  rw [← hbase, ← hmax, BitVec.le_def, BitVec.le_def, BitVec.toNat_add, BitVec.toNat_ofNat]
  unfold SysEnv.firstVblk
  cases env.goldfishRtc
  · change 0x41 ≤ hi.toNat ∧ hi.toNat ≤ (0x41 + env.vblkCnt % 2 ^ 32) % 2 ^ 32 ↔
      0x41 ≤ hi.toNat ∧ hi.toNat ≤ 0x41 + env.vblkCnt
    omega
  · change 0x42 ≤ hi.toNat ∧ hi.toNat ≤ (0x42 + env.vblkCnt % 2 ^ 32) % 2 ^ 32 ↔
      0x42 ≤ hi.toNat ∧ hi.toNat ≤ 0x42 + env.vblkCnt
    omega

theorem SysEnv.Booted.base (h : env.Booted) (hcnt : env.vblkCnt ≠ 0) : env.vblkMmioBaseHi.toNat = env.firstVblk := by
  have hrange := h.range
  rw [loadDtb_range _ hcnt, VblkRange.mk.injEq] at hrange
  obtain ⟨-, hbase, -⟩ := hrange
  rw [← hbase]
  unfold SysEnv.firstVblk
  cases env.goldfishRtc <;> rfl

/-- **The dispatch.** The test for a block device lets one megabyte too many through. -/
theorem SysEnv.Booted.mmioDevice_eq (h : env.Booted) (addr : Word) :
    env.mmioDevice addr =
      if addr >>> 28 = 0xf then
        if env.vblkCnt ≠ 0 ∧ env.firstVblk ≤ (mmioHi addr).toNat ∧
            (mmioHi addr).toNat ≤ env.firstVblk + env.vblkCnt then
          some (.vblk (BitVec.ofNat 32 ((mmioHi addr).toNat - env.firstVblk)))
        else if mmioHi addr = 0 ∨ mmioHi addr = 2 then some .plic
        else if mmioHi addr = 0x40 then some .uart
        else if mmioHi addr = 0x41 ∧ env.goldfishRtc = true then some .rtc
        else none
      else none := by
  unfold SysEnv.mmioDevice
  refine ite_congr rfl (fun _ => ?_) fun _ => rfl
  change (if env.vblkCnt ≠ 0 ∧ env.vblkMmioBaseHi ≤ mmioHi addr ∧ mmioHi addr ≤ env.vblkMmioMaxHi then
    some (Device.vblk (mmioHi addr - env.vblkMmioBaseHi)) else _) = _
  have hiff : (env.vblkCnt ≠ 0 ∧ env.vblkMmioBaseHi ≤ mmioHi addr ∧ mmioHi addr ≤ env.vblkMmioMaxHi) ↔
      (env.vblkCnt ≠ 0 ∧ env.firstVblk ≤ (mmioHi addr).toNat ∧
        (mmioHi addr).toNat ≤ env.firstVblk + env.vblkCnt) :=
    and_congr_right fun hcnt => h.vblk_iff hcnt
  refine ite_congr (propext hiff) (fun hin => ?_) fun _ => rfl
  obtain ⟨hcnt, hlow, -⟩ := hin
  congr 2
  apply BitVec.eq_of_toNat_eq
  have hlt := (mmioHi addr).isLt
  rw [BitVec.toNat_sub_of_le, h.base hcnt, BitVec.toNat_ofNat, Nat.mod_eq_of_lt (by omega)]
  rw [BitVec.le_def, h.base hcnt]
  exact hlow

theorem SysEnv.Booted.not_givenUp (h : env.Booted) (hs : s.needHandleSignal = false) : ¬ s.givenUp env = true := by
  unfold Sys.givenUp
  rw [h.mmio, if_neg Bool.false_ne_true, hs]
  exact Bool.false_ne_true

/-- The access functions hand the access to the device that the macros select. -/
theorem SysEnv.Booted.handsTo_iff (h : env.Booted) (hout : env.ramContains addr size = false)
    (hs : s.needHandleSignal = false) (dev : Device) :
    env.HandsTo size addr s dev ↔ env.mmioDevice addr = some dev := by
  have hgiven := h.not_givenUp hs
  have hram : ¬ env.ramContains addr size = true := Bool.eq_false_iff.mp hout
  have hloader : ¬ env.elfLoader = true := Bool.eq_false_iff.mp h.mmio
  refine ⟨HandsTo.selected, fun hdev => ⟨hdev, fun read => ?_, fun write value => ?_⟩⟩
  · change (if s.givenUp env = true then _ else _ : SysM Word) s = _
    rw [if_neg hgiven, if_neg hram, if_neg hloader, hdev]
    rfl
  · change (if s.givenUp env = true then _ else _ : SysM Unit) s = _
    rw [if_neg hgiven, if_neg hram, if_neg hloader, hdev]
    rfl

/-- A device that exists is selected in the windows only. -/
theorem SysEnv.Booted.hasDevice_iff (h : env.Booted) (addr : Word) :
    (∃ dev, env.HasDevice dev ∧ env.mmioDevice addr = some dev) ↔ env.InWindow addr := by
  have hnum : ∀ {c : Word}, mmioHi addr = c → (mmioHi addr).toNat = c.toNat := fun hc => congrArg _ hc
  have hfirst : env.firstVblk = 0x42 ∧ env.goldfishRtc = true ∨ env.firstVblk = 0x41 ∧ env.goldfishRtc = false := by
    unfold firstVblk
    cases env.goldfishRtc
    · exact .inr ⟨rfl, rfl⟩
    · exact .inl ⟨rfl, rfl⟩
  have hlt := mmioHi_lt addr
  rw [h.mmioDevice_eq]
  unfold InWindow
  by_cases hregion : addr >>> 28 = 0xf
  · rw [if_pos hregion, and_iff_right hregion]
    split_ifs with hvblk hplic huart hrtc
    · -- the block devices and the megabyte behind the last one
      obtain ⟨-, hlow, hhigh⟩ := hvblk
      have hindex : (BitVec.ofNat 32 ((mmioHi addr).toNat - env.firstVblk)).toNat =
          (mmioHi addr).toNat - env.firstVblk := by
        rw [BitVec.toNat_ofNat]
        exact Nat.mod_eq_of_lt (by omega)
      constructor
      · rintro ⟨dev, hhas, ⟨⟩⟩
        have hi : (BitVec.ofNat 32 ((mmioHi addr).toNat - env.firstVblk)).toNat < env.vblkCnt := hhas
        rw [hindex] at hi
        exact .inr (.inr (.inr (.inr ⟨hlow, by omega⟩)))
      · intro hin
        refine ⟨_, ?_, rfl⟩
        change (BitVec.ofNat 32 ((mmioHi addr).toNat - env.firstVblk)).toNat < env.vblkCnt
        rw [hindex]
        rcases hin with h0 | h0 | h0 | ⟨h0, hrtc⟩ | hin
        · have h0' : (mmioHi addr).toNat = 0 := hnum h0
          omega
        · have h0' : (mmioHi addr).toNat = 2 := hnum h0
          omega
        · have h0' : (mmioHi addr).toNat = 0x40 := hnum h0
          omega
        · have h0' : (mmioHi addr).toNat = 0x41 := hnum h0
          rcases hfirst with hf | hf
          · omega
          · rw [hf.2] at hrtc
            cases hrtc
        · omega
    · exact iff_of_true ⟨.plic, trivial, rfl⟩ (hplic.elim .inl fun h2 => .inr (.inl h2))
    · exact iff_of_true ⟨.uart, trivial, rfl⟩ (.inr (.inr (.inl huart)))
    · exact iff_of_true ⟨.rtc, hrtc.2, rfl⟩ (.inr (.inr (.inr (.inl hrtc))))
    · refine iff_of_false (fun ⟨_, _, hdev⟩ => by cases hdev) fun hin => ?_
      rcases hin with h0 | h0 | h0 | h0 | ⟨hlow, hhigh⟩
      · exact hplic (.inl h0)
      · exact hplic (.inr h0)
      · exact huart h0
      · exact hrtc h0
      · exact hvblk ⟨by omega, hlow, by omega⟩
  · rw [if_neg hregion]
    exact iff_of_false (fun ⟨_, _, hdev⟩ => by cases hdev) fun hin => hregion hin.1

/-- Elsewhere the macros select nothing, or the block device behind the last one. -/
theorem SysEnv.Booted.outside_window (h : env.Booted) (hwin : ¬ env.InWindow addr) :
    env.mmioDevice addr = none ∨ env.mmioDevice addr = some (.vblk (BitVec.ofNat 32 env.vblkCnt)) := by
  have hnone : ∀ dev, env.HasDevice dev → env.mmioDevice addr ≠ some dev := fun dev hhas hdev =>
    hwin ((h.hasDevice_iff addr).mp ⟨dev, hhas, hdev⟩)
  have heq := h.mmioDevice_eq addr
  split_ifs at heq with hregion hvblk hplic huart hrtc
  · obtain ⟨-, hlow, hhigh⟩ := hvblk
    refine .inr (heq.trans ?_)
    congr 3
    by_contra hne
    refine hwin ⟨hregion, .inr (.inr (.inr (.inr ⟨hlow, ?_⟩)))⟩
    omega
  · exact absurd heq (hnone .plic trivial)
  · exact absurd heq (hnone .uart trivial)
  · exact absurd heq (hnone .rtc hrtc.2)
  · exact .inl heq
  · exact .inl heq

/-- An access for which nothing is selected runs into `__UNREACHABLE`. -/
theorem SysEnv.Booted.mmuReadAt_unreachable (h : env.Booted) (hout : env.ramContains addr size = false)
    (hs : s.needHandleSignal = false) (hnone : env.mmioDevice addr = none) (read : Cpu → Word → Word) :
    mmuReadAt env size read addr s = none := by
  change (if s.givenUp env = true then _ else _ : SysM Word) s = _
  rw [if_neg (h.not_givenUp hs), if_neg (Bool.eq_false_iff.mp hout), if_neg (Bool.eq_false_iff.mp h.mmio), hnone]
  rfl

end Windows

/-- **Dispatch.** Outside RAM an access is handed to a device that exists exactly in the windows. -/
theorem mmio_handed_iff {env : SysEnv} (h : env.Booted) {size : Nat} {addr : Word}
    (hout : env.ramContains addr size = false) {s : Sys} (hs : s.needHandleSignal = false) :
    (∃ dev, env.HasDevice dev ∧ env.HandsTo size addr s dev) ↔ env.InWindow addr := by
  rw [← h.hasDevice_iff addr]
  exact exists_congr fun dev => and_congr_right fun _ => h.handsTo_iff hout hs dev

/-- A machine with one block device and without the RTC. -/
def oneDisk : SysEnv := { deviceless with vblkCnt := 1, vblkMmioBaseHi := 0x41, vblkMmioMaxHi := 0x42 }

theorem oneDisk_booted : oneDisk.Booted := ⟨rfl, by decide, rfl⟩

def atReset : Sys := { cpu := Cpu.zero fun _ => 0 }

/-- The block device gets the accesses of its window. -/
theorem mmio_handed_oneDisk : ∃ dev, oneDisk.HasDevice dev ∧ oneDisk.HandsTo 4 0xf4100000 atReset dev :=
  (mmio_handed_iff oneDisk_booted rfl rfl).mpr
    ⟨by decide, .inr (.inr (.inr (.inr ⟨by decide, by decide⟩)))⟩

/-- A load behind RAM is undefined, and one behind the window of the only block device goes to the second. -/
theorem mmio_not_total :
    oneDisk.Booted ∧ oneDisk.ramContains 0x80000000 4 = false ∧
      (∀ raise, mmuRead oneDisk raise 4 Cpu.memReadW 0x80000000 atReset = none) ∧
      oneDisk.ramContains 0xf4200000 4 = false ∧
      oneDisk.mmioDevice 0xf4200000 = some (.vblk 1) ∧ ¬ oneDisk.HasDevice (.vblk 1) :=
  ⟨oneDisk_booted, rfl, fun _ => rfl, rfl, rfl, Nat.lt_irrefl 1⟩

end Rv32emu
