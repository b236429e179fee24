import Rv32emu.Machine
import Rv32emu.X64

/-!
# Host registers in tier 1

The register map of `jit.c` on an x86-64 host with the System V calling convention, the emitters that go through
it and the allocator.

* `RegMap` : `register_map`; `hostReg` : the host register of an entry;
* `emitAlu32`, `emitMov`, `emitLoad`, `emitStore`, … : one instruction each, with what they record in the map;
* `saveReg`, `storeBack` : a VM register is written to `rv->X`;
* `regPick`, `mapVmReg`, `raLoad`, `raLoad2`, `raLoad2Sext` : the allocator. What it takes an entry for, or from,
  depends on the liveness of the VM registers, which here is whatever `queue` and the `alive` bits say.
-/

namespace Rv32emu.Tier1

open X64 (Instr Emitter)
open X64.Emitter (emit)

/-! ## The register map -/

/-- An index of `register_map`. -/
abbrev HostIdx := Fin 10

/-- `register_map[i].reg_idx`. -/
def hostReg : HostIdx → X64.Reg
  | 0 => .rax
  | 1 => .rbx
  | 2 => .rdx
  | 3 => .r8
  | 4 => .r9
  | 5 => .r10
  | 6 => .r11
  | 7 => .r13
  | 8 => .r14
  | 9 => .r15

def tempReg : X64.Reg := .rcx

/-- `parameter_reg[0]`: the address of `riscv_t`. -/
def rvReg : X64.Reg := .rdi

theorem hostReg_injective : Function.Injective hostReg := by decide

theorem hostReg_ne_tempReg : ∀ i, hostReg i ≠ tempReg := by decide

theorem hostReg_ne_rvReg : ∀ i, hostReg i ≠ rvReg := by decide

/-- `register_map`; an entry that maps no register has `vm_reg_idx = -1`. -/
@[ext] structure RegMap where
  vmReg : HostIdx → Option Reg
  dirty : HostIdx → Bool
  alive : HostIdx → Bool

abbrev Gen := Emitter RegMap

namespace RegMap

def reset : RegMap := ⟨fun _ => none, fun _ => false, fun _ => false⟩

def setDirty (m : RegMap) (r : X64.Reg) (isDirty : Bool) : RegMap :=
  match (List.finRange 10).find? fun i => hostReg i = r with
  | some i => { m with dirty := Function.update m.dirty i isDirty }
  | none => m

def unmapVmReg (m : RegMap) (i : HostIdx) : RegMap := { m with vmReg := Function.update m.vmReg i none }

def setVmReg (m : RegMap) (i : HostIdx) (r : Reg) : RegMap :=
  { m with vmReg := Function.update m.vmReg i (some r), alive := Function.update m.alive i true }

/-- The entry of the host register `r` is mapped to `x0`. -/
def mapsX0 (m : RegMap) (r : X64.Reg) : Bool :=
  (List.finRange 10).any fun i => hostReg i = r ∧ m.vmReg i = some regZero

/-- The first entry that is mapped to `r`. -/
def find (m : RegMap) (r : Reg) : Option HostIdx := (List.finRange 10).find? fun i => m.vmReg i = some r

/-- The host register of the last entry that is mapped to `r`. -/
def origin (m : RegMap) (r : Reg) : Option X64.Reg :=
  ((List.finRange 10).filter fun i => m.vmReg i = some r).getLast?.map hostReg

theorem setDirty_hostReg (m : RegMap) (i : HostIdx) (d : Bool) :
    m.setDirty (hostReg i) d = { m with dirty := Function.update m.dirty i d } := by
  have h : ((List.finRange 10).find? fun j => hostReg j = hostReg i) = some i := by
    revert i
    decide
  rw [setDirty, h]

@[simp] theorem setDirty_vmReg (m : RegMap) (r : X64.Reg) (d : Bool) : (m.setDirty r d).vmReg = m.vmReg := by
  unfold setDirty
  split <;> rfl

@[simp] theorem setDirty_alive (m : RegMap) (r : X64.Reg) (d : Bool) : (m.setDirty r d).alive = m.alive := by
  unfold setDirty
  split <;> rfl

theorem setDirty_dirty (m : RegMap) (i : HostIdx) (d : Bool) :
    (m.setDirty (hostReg i) d).dirty = Function.update m.dirty i d := by
  rw [setDirty_hostReg]

@[simp] theorem setDirty_rcx (m : RegMap) (d : Bool) : m.setDirty .rcx d = m := rfl

theorem setDirty_rax (m : RegMap) (d : Bool) : m.setDirty .rax d = { m with dirty := Function.update m.dirty 0 d } :=
  m.setDirty_hostReg 0 d

theorem setDirty_rdx (m : RegMap) (d : Bool) : m.setDirty .rdx d = { m with dirty := Function.update m.dirty 2 d } :=
  m.setDirty_hostReg 2 d

@[simp] theorem setDirty_setDirty (m : RegMap) (r : X64.Reg) (d d' : Bool) :
    (m.setDirty r d).setDirty r d' = m.setDirty r d' := by
  unfold setDirty
  cases (List.finRange 10).find? fun i => hostReg i = r with
  | none => rfl
  | some i => simp only [Function.update_idem]

theorem mapsX0_hostReg (m : RegMap) (i : HostIdx) : m.mapsX0 (hostReg i) = true ↔ m.vmReg i = some regZero := by
  simp only [mapsX0, List.any_eq_true, List.mem_finRange, true_and, decide_eq_true_eq, hostReg_injective.eq_iff]
  exact ⟨fun ⟨_, h, h'⟩ => h ▸ h', fun h => ⟨i, rfl, h⟩⟩

theorem find_eq_some {m : RegMap} {r : Reg} {i : HostIdx} (h : m.find r = some i) : m.vmReg i = some r := by
  simpa using List.find?_some h

theorem find_eq_none {m : RegMap} {r : Reg} (h : m.find r = none) (i : HostIdx) : m.vmReg i ≠ some r := by
  simpa using List.find?_eq_none.mp h i (List.mem_finRange i)

theorem origin_eq_some {m : RegMap} {r : Reg} {v : X64.Reg} (h : m.origin r = some v) :
    ∃ i, m.vmReg i = some r ∧ hostReg i = v := by
  obtain ⟨i, hi, hv⟩ := Option.map_eq_some_iff.mp h
  exact ⟨i, by simpa using (List.mem_filter.mp (List.mem_of_getLast? hi)).2, hv⟩

theorem origin_ne_none {m : RegMap} {r : Reg} {i : HostIdx} (h : m.vmReg i = some r) : m.origin r ≠ none := by
  intro h0
  have hmem : i ∈ (List.finRange 10).filter fun i => m.vmReg i = some r :=
    List.mem_filter.mpr ⟨List.mem_finRange i, decide_eq_true h⟩
  rw [origin, Option.map_eq_none_iff, List.getLast?_eq_none_iff] at h0
  rw [h0] at hmem
  exact List.not_mem_nil hmem

end RegMap

def setDirty (r : X64.Reg) (isDirty : Bool) : Gen Unit := Emitter.modify fun m => m.setDirty r isDirty

def unmapVmReg (i : HostIdx) : Gen Unit := Emitter.modify fun m => m.unmapVmReg i

def setVmReg (i : HostIdx) (r : Reg) : Gen Unit := Emitter.modify fun m => m.setVmReg i r

/-! ## Emitters -/

/-- `emit_alu32`; its opcodes are the constructors of `X64.Alu`. -/
def emitAlu32 (op : X64.Alu) (src dst : X64.Reg) : Gen Unit := do
  emit (.alu32 op src dst)
  setDirty dst true

def emitAlu32Imm32 (op : X64.Alu) (dst : X64.Reg) (imm : Word) : Gen Unit := do
  emit (.alu32Imm op dst imm)
  setDirty dst true

def emitShiftImm8 (op : X64.Shift) (dst : X64.Reg) (imm : BitVec 8) : Gen Unit := do
  emit (.shift32Imm op dst imm)
  setDirty dst true

/-- `emit_alu32` with the opcode of a shift by `cl`. -/
def emitShiftCl (op : X64.Shift) (dst : X64.Reg) : Gen Unit := do
  emit (.shift32Cl op dst)
  setDirty dst true

/-- `emit_alu64` with the opcode of an addition. -/
def emitAdd64 (src dst : X64.Reg) : Gen Unit := do
  emit (.add64 src dst)
  setDirty dst true

/-- `emit_alu64_imm8` with the opcode of a logical shift to the right. -/
def emitShr64Imm8 (dst : X64.Reg) (imm : BitVec 8) : Gen Unit := do
  emit (.shr64Imm dst imm)
  setDirty dst true

def emitMov (src dst : X64.Reg) : Gen Unit := do
  emit (.mov src dst)
  setDirty dst true

def emitCmp32 (src dst : X64.Reg) : Gen Unit := emitAlu32 .cmp src dst

def emitCmpImm32 (dst : X64.Reg) (imm : Word) : Gen Unit := emitAlu32Imm32 .cmp dst imm

def emitLoadImm (dst : X64.Reg) (imm : Word) : Gen Unit := do
  emit (.movImm32 dst imm)
  setDirty dst true

def emitLoadImmSext (dst : X64.Reg) (imm : BitVec 64) : Gen Unit := do
  emit (.movImm64 dst imm)
  setDirty dst true

def emitConditionalMove (src dst : X64.Reg) : Gen Unit := emit (.cmov .e src dst)

def emitSxtw (reg : X64.Reg) : Gen Unit := emit (.movsxd reg reg)

/-- `emit_load`, and `emit_load_sext` with `sext`. A register that is mapped to `x0` is set to 0 without a load. -/
def emitLoadAs (sext : Bool) (size : X64.Width) (src dst : X64.Reg) (offset : Word) : Gen Unit := do
  let m ← Emitter.get
  if m.mapsX0 dst then
    emitLoadImm dst 0
    setDirty dst true
  else
    emit (.load size sext src offset dst)
    setDirty dst (offset = 0)

def emitLoad : X64.Width → X64.Reg → X64.Reg → Word → Gen Unit := emitLoadAs false

def emitStore (size : X64.Width) (src dst : X64.Reg) (offset : Word) : Gen Unit := do
  let m ← Emitter.get
  if m.mapsX0 src then
    emit (.storeZero size dst offset)
    setDirty src false
  else
    emit (.store size src dst offset)
    if offset ≠ 0 then setDirty src false

/-! ## The allocator -/

/-- `offsetof(riscv_t, X) + 4 * r`. -/
def slotOff (r : Reg) : Word := 4 + 4 * r.setWidth 32

/-- `offsetof(riscv_t, PC)`. -/
def pcOff : Word := 4 + 4 * 32

/-- The same with `vm_reg_idx`, which may be -1. -/
def entryOff : Option Reg → Word
  | some r => slotOff r
  | none => 4 + 4 * (-1)

def saveReg (i : HostIdx) : Gen Unit := do
  let m ← Emitter.get
  if m.dirty i then
    -- `x0` is never saved
    if m.vmReg i = some regZero then setDirty (hostReg i) false
    else
      emitStore .s32 (hostReg i) rvReg (entryOff (m.vmReg i))
      setDirty (hostReg i) false

def storeBack : Gen Unit :=
  (List.finRange 10).forM fun i => do
    let m ← Emitter.get
    if m.vmReg i ≠ none then saveReg i

def RegMap.regsRefresh (liveness : Reg → Int) (idx : Nat) (m : RegMap) : RegMap :=
  { m with alive := fun i =>
      match m.vmReg i with
      | some r => if liveness r < idx then false else m.alive i
      | none => m.alive i }

/-- `reg_pick` and `reg_pick2`, with `candidate_queue`. -/
def regPick (queue : List Reg) (reserved : List X64.Reg) (m : RegMap) : Option HostIdx :=
  match (List.finRange 10).find? fun i => hostReg i ∉ reserved ∧ m.alive i = false with
  | some i => some i
  | none => queue.findSome? fun candidate =>
      (List.finRange 10).find? fun j => hostReg j ∉ reserved ∧ m.vmReg j = some candidate

/-- What `map_vm_reg`, `map_vm_reg_reserved` and `map_vm_reg_reserved2` share. -/
def mapVmRegBut (queue : List Reg) (reserved : List X64.Reg) (r : Reg) : Gen X64.Reg := do
  let m ← Emitter.get
  match m.find r with
  | some i => return hostReg i
  | none =>
    match regPick queue reserved m with
    | none => Emitter.fail
    | some i =>
      saveReg i
      unmapVmReg i
      setVmReg i r
      return hostReg i

def mapVmReg (queue : List Reg) : Reg → Gen X64.Reg := mapVmRegBut queue []

/-- `map_vm_reg_reserved`. Its loop ends at once, since `reg_pick` does not return the reserved register. -/
def mapVmRegReserved (queue : List Reg) (r : Reg) (reserved : X64.Reg) : Gen X64.Reg := mapVmRegBut queue [reserved] r

def mapVmRegReserved2 (queue : List Reg) (r : Reg) (reserved1 reserved2 : X64.Reg) : Gen X64.Reg :=
  mapVmRegBut queue [reserved1, reserved2] r

/-- The end of `ra_load`, `ra_load2` and, with `sext`, `ra_load2_sext` for one operand: `m` is the map at the start, and
`v` the register that `r` is mapped to now. -/
def loadSext (m : RegMap) (r : Reg) (v : X64.Reg) (sext : Bool) : Gen Unit := do
  if m.origin r ≠ some v then emitLoadAs sext .s32 rvReg v (slotOff r)
  else if sext then emitSxtw v

def raLoad (queue : List Reg) (r : Reg) : Gen X64.Reg := do
  let m ← Emitter.get
  let target ← mapVmReg queue r
  loadSext m r target false
  return target

/-- The registers that `ra_load2` and `ra_load2_sext` load to. -/
def mapVmReg2 (queue : List Reg) (r1 r2 : Reg) : Gen (X64.Reg × X64.Reg) := do
  if r1 = r2 then
    let v ← mapVmReg queue r1
    return (v, v)
  else
    let v0 ← mapVmReg queue r1
    let v1 ← mapVmRegReserved queue r2 v0
    return (v0, v1)

def raLoad2Sext (queue : List Reg) (r1 r2 : Reg) (sext1 sext2 : Bool) : Gen (X64.Reg × X64.Reg) := do
  let m ← Emitter.get
  let (v0, v1) ← mapVmReg2 queue r1 r2
  loadSext m r1 v0 sext1
  loadSext m r2 v1 sext2
  return (v0, v1)

def raLoad2 (queue : List Reg) (r1 r2 : Reg) : Gen (X64.Reg × X64.Reg) := raLoad2Sext queue r1 r2 false false

/-! ## The emitters, run -/

section Exec

variable (src dst : X64.Reg) (m : RegMap) (s : X64.State)

@[simp] theorem exec_setDirty (d : Bool) : (setDirty dst d).exec m s = some ((), m.setDirty dst d, s) :=
  Emitter.exec_modify _ _ _

@[simp] theorem exec_unmapVmReg (i : HostIdx) : (unmapVmReg i).exec m s = some ((), m.unmapVmReg i, s) :=
  Emitter.exec_modify _ _ _

@[simp] theorem exec_setVmReg (i : HostIdx) (r : Reg) : (setVmReg i r).exec m s = some ((), m.setVmReg i r, s) :=
  Emitter.exec_modify _ _ _

@[simp] theorem exec_emitAlu32 (op : X64.Alu) :
    (emitAlu32 op src dst).exec m s = some ((), m.setDirty dst true, op.apply dst (X64.lo (s.regs src)) s) := by
  simp [emitAlu32, Instr.exec]

@[simp] theorem exec_emitAlu32Imm32 (op : X64.Alu) (imm : Word) :
    (emitAlu32Imm32 op dst imm).exec m s = some ((), m.setDirty dst true, op.apply dst imm s) := by
  simp [emitAlu32Imm32, Instr.exec]

@[simp] theorem exec_emitShiftImm8 (op : X64.Shift) (imm : BitVec 8) :
    (emitShiftImm8 op dst imm).exec m s = some ((), m.setDirty dst true, op.apply dst imm s) := by
  simp [emitShiftImm8, Instr.exec]

@[simp] theorem exec_emitShiftCl (op : X64.Shift) :
    (emitShiftCl op dst).exec m s =
      some ((), m.setDirty dst true, op.apply dst ((s.regs .rcx).setWidth 8) s) := by
  simp [emitShiftCl, Instr.exec]

@[simp] theorem exec_emitAdd64 :
    (emitAdd64 src dst).exec m s =
      some ((), m.setDirty dst true, { s with flags := none }.set dst (s.regs dst + s.regs src)) := by
  simp [emitAdd64, Instr.exec]

@[simp] theorem exec_emitShr64Imm8 (imm : BitVec 8) :
    (emitShr64Imm8 dst imm).exec m s =
      some ((), m.setDirty dst true, { s with flags := none }.set dst (s.regs dst >>> (imm.toNat % 64))) := by
  simp [emitShr64Imm8, Instr.exec]

@[simp] theorem exec_emitCmp32 :
    (emitCmp32 src dst).exec m s = some ((), m.setDirty dst true, X64.Alu.cmp.apply dst (X64.lo (s.regs src)) s) :=
  exec_emitAlu32 src dst m s .cmp

@[simp] theorem exec_emitCmpImm32 (imm : Word) :
    (emitCmpImm32 dst imm).exec m s = some ((), m.setDirty dst true, X64.Alu.cmp.apply dst imm s) :=
  exec_emitAlu32Imm32 dst m s .cmp imm

@[simp] theorem exec_emitMov :
    (emitMov src dst).exec m s = some ((), m.setDirty dst true, s.set dst (s.regs src)) := by
  simp [emitMov, Instr.exec]

@[simp] theorem exec_emitLoadImm (imm : Word) :
    (emitLoadImm dst imm).exec m s = some ((), m.setDirty dst true, s.set dst (X64.zx imm)) := by
  simp [emitLoadImm, Instr.exec]

@[simp] theorem exec_emitLoadImmSext (imm : BitVec 64) :
    (emitLoadImmSext dst imm).exec m s = some ((), m.setDirty dst true, s.set dst imm) := by
  simp [emitLoadImmSext, Instr.exec]

@[simp] theorem exec_emitSxtw :
    (emitSxtw dst).exec m s = some ((), m, s.set dst ((X64.lo (s.regs dst)).signExtend 64)) := by
  simp [emitSxtw, Instr.exec]

section Memory

variable {src dst m} (size : X64.Width) (off : Word)

theorem exec_emitLoadAs (h : m.mapsX0 dst = false) (sext : Bool) :
    (emitLoadAs sext size src dst off).exec m s =
      some ((), m.setDirty dst (off = 0), s.set dst (size.extend (size.read s.mem (s.addr src off)) sext)) := by
  simp [emitLoadAs, Instr.exec, h]

theorem exec_emitLoadAs_x0 (h : m.mapsX0 dst = true) (sext : Bool) :
    (emitLoadAs sext size src dst off).exec m s = some ((), m.setDirty dst true, s.set dst (X64.zx 0)) := by
  simp [emitLoadAs, h]

theorem exec_emitStore (h : m.mapsX0 src = false) :
    (emitStore size src dst off).exec m s =
      some ((), if off = 0 then m else m.setDirty src false,
        { s with mem := size.write s.mem (s.addr dst off) (X64.lo (s.regs src)) }) := by
  by_cases h0 : off = 0 <;>
    simp only [emitStore, Emitter.exec_bind, Emitter.exec_get, Option.bind_some, h, Bool.false_eq_true, reduceIte,
      Emitter.exec_emit, Instr.exec, Option.map_some, ne_eq, h0, not_true_eq_false, not_false_eq_true, exec_setDirty,
      Emitter.exec_pure]

theorem exec_emitStore_x0 (h : m.mapsX0 src = true) :
    (emitStore size src dst off).exec m s =
      some ((), m.setDirty src false, { s with mem := size.write s.mem (s.addr dst off) 0 }) := by
  simp [emitStore, Instr.exec, h]

end Memory

theorem exec_emitConditionalMove (f : X64.Flags) (hf : s.flags = some f) :
    (emitConditionalMove src dst).exec m s =
      some ((), m, s.set dst (if f.zf then s.regs src else s.regs dst)) := by
  rw [emitConditionalMove, Emitter.exec_emit, Instr.exec, hf]
  rfl

end Exec

end Rv32emu.Tier1
