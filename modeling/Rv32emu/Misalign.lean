import Rv32emu.Template

/-!
# Emulation of misaligned accesses

* `byteAccess` : a load or store, byte by byte;
* `emulateMisaligned_eq` : the integer accesses are emulated so;
* `misaligned_emulated_iff` : the floating-point ones are skipped, and the compressed ones among them with the
  wrong length.
-/

namespace Rv32emu

/-! ## Loads and stores -/

namespace Opcode

def isIntLoad : Opcode → Bool
  | .lh | .lhu | .lw | .clw | .clwsp => true
  | _ => false

def isIntStore : Opcode → Bool
  | .sh | .sw | .csw | .cswsp => true
  | _ => false

def isFpLoad : Opcode → Bool
  | .flw | .cflw | .cflwsp => true
  | _ => false

def isFpStore : Opcode → Bool
  | .fsw | .cfsw | .cfswsp => true
  | _ => false

def accessMask : Opcode → Word
  | .lh | .lhu | .sh => 1
  | _ => 3

theorem isIntLoad_cases {op : Opcode} (h : op.isIntLoad = true) :
    op = .lh ∨ op = .lhu ∨ op = .lw ∨ op = .clw ∨ op = .clwsp := by
  cases op <;> simp_all [isIntLoad]

theorem isIntStore_cases {op : Opcode} (h : op.isIntStore = true) : op = .sh ∨ op = .sw ∨ op = .csw ∨ op = .cswsp := by
  cases op <;> simp_all [isIntStore]

theorem isFpLoad_cases {op : Opcode} (h : op.isFpLoad = true) : op = .flw ∨ op = .cflw ∨ op = .cflwsp := by
  cases op <;> simp_all [isFpLoad]

theorem isFpStore_cases {op : Opcode} (h : op.isFpStore = true) : op = .fsw ∨ op = .cfsw ∨ op = .cfswsp := by
  cases op <;> simp_all [isFpStore]

end Opcode

def Insn.accessAddr (ir : Insn) (x : Reg → Word) : Word :=
  match ir.opcode with
  | .clwsp | .cswsp | .cflwsp | .cfswsp => addrSp ir x
  | _ => addrImm ir x

namespace Cpu

def halfAt (s : Cpu) (a : Word) : BitVec 16 := s.memReadB (a + 1) ++ s.memReadB a

def wordAt (s : Cpu) (a : Word) : Word :=
  s.memReadB (a + 3) ++ s.memReadB (a + 2) ++ s.memReadB (a + 1) ++ s.memReadB a

def putHalf (s : Cpu) (a : Word) (v : Word) : Cpu :=
  (s.memWriteB a (v.setWidth 8)).memWriteB (a + 1) ((v >>> 8).setWidth 8)

def putWord (s : Cpu) (a : Word) (v : Word) : Cpu :=
  ((s.putHalf a v).memWriteB (a + 2) ((v >>> 16).setWidth 8)).memWriteB (a + 3) ((v >>> 24).setWidth 8)

end Cpu

/-- A load or store, byte by byte in little-endian order. As in the handler of an aligned load, `X[rd]` is
written whatever `rd` is. -/
def byteAccess (ir : Insn) (a : Word) (s : Cpu) : Cpu :=
  match ir.opcode with
  | .lw | .clw | .clwsp => s.setX ir.rd (s.wordAt a)
  | .lh => s.setX ir.rd (signExtendH ((s.halfAt a).setWidth 32))
  | .lhu => s.setX ir.rd ((s.halfAt a).setWidth 32)
  | .sw | .csw | .cswsp => s.putWord a (s.X ir.rs2)
  | .sh => s.putHalf a (s.X ir.rs2)
  | .flw | .cflw | .cflwsp => { s with fpu := s.fpu.setF ir.rd (s.wordAt a) }
  | .fsw | .cfsw | .cfswsp => s.putWord a (s.fpu.F ir.rs2)
  | _ => s

/-! ## What the emulation computes -/

section Emulation

variable {s : Cpu} {a : Word}

theorem memOff_succ (h : a &&& 1 = 0) : memOff (a + 1) = memOff a + 1 := by
  have heven : a.toNat % 2 = 0 := by
    have h' := congrArg BitVec.toNat h
    rw [BitVec.toNat_and] at h'
    exact (Nat.and_two_pow_sub_one_eq_mod a.toNat 1).symm.trans h'
  have hlt := a.isLt
  apply BitVec.eq_of_toNat_eq
  unfold memOff
  rw [BitVec.toNat_setWidth, BitVec.toNat_add, BitVec.toNat_add, BitVec.toNat_setWidth]
  have h32 : (1 : Word).toNat = 1 := rfl
  have h64 : (1 : BitVec 64).toNat = 1 := rfl
  rw [h32, h64]
  omega

theorem and_one_add_two (h : a &&& 1 = 0) : (a + 2) &&& 1 = 0 := by
  have hbit : ∀ x : Word, (x + 2) &&& 1 = x &&& 1 := by
    intro x
    apply BitVec.eq_of_toNat_eq
    rw [BitVec.toNat_and, BitVec.toNat_and, BitVec.toNat_add]
    have h1 : (1 : Word).toNat = 2 ^ 1 - 1 := rfl
    have h2 : (2 : Word).toNat = 2 := rfl
    rw [h1, h2, Nat.and_two_pow_sub_one_eq_mod, Nat.and_two_pow_sub_one_eq_mod]
    omega
  rw [hbit, h]

theorem memReadS_even (h : a &&& 1 = 0) : s.memReadS a = s.halfAt a := by
  unfold Cpu.memReadS Cpu.halfAt Cpu.memReadB Mem.readS Mem.readB
  rw [memOff_succ h]

theorem memWriteS_even (h : a &&& 1 = 0) (v : Word) : s.memWriteS a (v.setWidth 16) = s.putHalf a v := by
  have hbyte : ∀ k ≤ 8, (v.setWidth 16).extractLsb' k 8 = (v >>> k).setWidth 8 := by
    intro k hk
    apply BitVec.eq_of_getLsbD_eq
    intro i hi
    simp only [BitVec.getLsbD_setWidth, BitVec.getLsbD_ushiftRight, BitVec.getLsbD_extractLsb']
    simp [hi, show k + i < 16 by omega]
  unfold Cpu.memWriteS Cpu.putHalf Cpu.memWriteB Mem.writeS
  rw [memOff_succ h, hbyte 0 (by decide), hbyte 8 (by decide), BitVec.ushiftRight_zero]

theorem or_half : (s.memReadB a).setWidth 32 ||| (s.memReadB (a + 1)).setWidth 32 <<< 8 = (s.halfAt a).setWidth 32 := by
  unfold Cpu.halfAt
  apply BitVec.eq_of_getLsbD_eq
  intro i hi
  simp only [BitVec.getLsbD_or, BitVec.getLsbD_setWidth, BitVec.getLsbD_shiftLeft, BitVec.getLsbD_append]
  interval_cases i <;> simp

theorem or_word : (s.halfAt a).setWidth 32 ||| (s.halfAt (a + 2)).setWidth 32 <<< 16 = s.wordAt a := by
  have h3 : a + 2 + 1 = a + 3 := BitVec.add_assoc a 2 1
  unfold Cpu.halfAt Cpu.wordAt
  rw [h3]
  apply BitVec.eq_of_getLsbD_eq
  intro i hi
  have hi' : i < 32 := hi
  simp only [BitVec.getLsbD_or, BitVec.getLsbD_setWidth, BitVec.getLsbD_shiftLeft, BitVec.getLsbD_append]
  interval_cases i <;> simp

theorem or_bytes : (s.halfAt a).setWidth 32 ||| (s.memReadB (a + 2)).setWidth 32 <<< 16 |||
    (s.memReadB (a + 3)).setWidth 32 <<< 24 = s.wordAt a := by
  have h3 : a + 2 + 1 = a + 3 := BitVec.add_assoc a 2 1
  rw [← or_word, ← or_half (a := a + 2), h3, BitVec.shiftLeft_or_distrib, BitVec.or_assoc, ← BitVec.shiftLeft_add]

theorem putWord_eq (v : Word) : s.putWord a v = (s.putHalf a v).putHalf (a + 2) (v >>> 16) := by
  have h3 : a + 2 + 1 = a + 3 := BitVec.add_assoc a 2 1
  unfold Cpu.putWord Cpu.putHalf
  rw [h3, ← BitVec.shiftRight_add]

/-- **The integer loads are emulated.** -/
theorem emulateMisalignedLoad_int {ir : Insn} (hop : ir.opcode.isIntLoad = true) :
    emulateMisalignedLoad s ir a = some (byteAccess ir a s) := by
  have hword : (if a &&& 1 = 0 then (s.memReadS a).setWidth 32 ||| (s.memReadS (a + 2)).setWidth 32 <<< 16
      else (s.halfAt a).setWidth 32 ||| (s.memReadB (a + 2)).setWidth 32 <<< 16 |||
        (s.memReadB (a + 3)).setWidth 32 <<< 24 : Word) = s.wordAt a := by
    split_ifs with heven
    · rw [memReadS_even heven, memReadS_even (and_one_add_two heven), or_word]
    · exact or_bytes
  unfold emulateMisalignedLoad byteAccess
  simp only [or_half, hword]
  rcases Opcode.isIntLoad_cases hop with h | h | h | h | h <;> rw [h]

theorem emulateMisalignedLoad_fp {ir : Insn} (hop : ir.opcode.isFpLoad = true) :
    emulateMisalignedLoad s ir a = none := by
  unfold emulateMisalignedLoad
  rcases Opcode.isFpLoad_cases hop with h | h | h <;> rw [h]

/-- **The integer stores are emulated.** -/
theorem emulateMisalignedStore_int {ir : Insn} (hop : ir.opcode.isIntStore = true) :
    emulateMisalignedStore s ir a = some (byteAccess ir a s) := by
  have hword : (if a &&& 1 = 0 then some ((s.memWriteS a ((s.X ir.rs2).setWidth 16)).memWriteS (a + 2)
        ((s.X ir.rs2 >>> 16).setWidth 16))
      else some (s.putWord a (s.X ir.rs2))) = some (s.putWord a (s.X ir.rs2)) := by
    split_ifs with heven
    · rw [memWriteS_even heven, memWriteS_even (and_one_add_two heven), putWord_eq]
    · rfl
  unfold emulateMisalignedStore byteAccess
  simp only
  rcases Opcode.isIntStore_cases hop with h | h | h | h
  · rw [h]
    rfl
  · rw [h]
    exact hword
  · rw [h]
    exact hword
  · rw [h]
    exact hword

theorem emulateMisalignedStore_fp {ir : Insn} (hop : ir.opcode.isFpStore = true) :
    emulateMisalignedStore s ir a = none := by
  unfold emulateMisalignedStore
  rcases Opcode.isFpStore_cases hop with h | h | h <;> simp only [h]

end Emulation

/-! ## An instruction -/

def execInsn (env : Env) (ir : Insn) (lk : Links) (noNext : Bool) (cycle : BitVec 64) (pc : Word) (s : Cpu) : Cpu :=
  match doRvop env ir lk noNext cycle pc s with
  | .trap t s => (t.take env s).1
  | c => c.cpu

def Cpu.data (s : Cpu) : (Reg → Word) × Fpu × Mem := (s.X, s.fpu, s.mem)

/-- The access is made byte by byte, nothing else is changed, and the `PC` goes to the next instruction. -/
def Emulated (ir : Insn) (a pc : Word) (s s' : Cpu) : Prop :=
  s'.data = (byteAccess ir a s).data ∧ s'.PC = pc + ir.opcode.len

namespace Opcode

def isAccess (op : Opcode) : Bool := op.isIntLoad || op.isIntStore || (op.isFpLoad || op.isFpStore)

def misalignCause (op : Opcode) : Cause := if op.isIntLoad || op.isFpLoad then .loadMisaligned else .storeMisaligned

/-- The flag the handler sets before the trap. -/
def trapCompressed : Opcode → Bool
  | .clw | .clwsp | .csw | .cswsp => true
  | _ => false

end Opcode

section Insn

variable {env : Env} {ir : Insn} {lk : Links} {noNext : Bool} {cycle : BitVec 64} {pc a : Word} {s s' : Cpu}

theorem doRvop_misaligned (hallow : env.allowMisalign = false) (hop : ir.opcode.isAccess = true)
    (hmis : ir.accessAddr s.X &&& ir.opcode.accessMask ≠ 0) :
    doRvop env ir lk noNext cycle pc s =
      .trap ⟨ir.opcode.misalignCause, ir.accessAddr s.X, .retFalse⟩
        ({ s with compressed := ir.opcode.trapCompressed }.save (cycle + 1) pc) := by
  have hm : misaligned env ir.opcode.accessMask (ir.accessAddr s.X) = true := by
    unfold misaligned
    rw [hallow]
    simpa using hmis
  have hexec : (rvop ir.opcode).exec env ir lk (cycle + 1) pc s =
      misalignTrap ir.opcode.misalignCause (ir.accessAddr s.X) ir.opcode.trapCompressed (cycle + 1) pc s := by
    unfold Insn.accessAddr at hm ⊢
    rw [Opcode.isAccess, Bool.or_eq_true, Bool.or_eq_true, Bool.or_eq_true] at hop
    rcases hop with (h | h) | h | h
    · rcases Opcode.isIntLoad_cases h with h | h | h | h | h <;> (rw [h] at hm ⊢; exact if_pos hm)
    · rcases Opcode.isIntStore_cases h with h | h | h | h <;> (rw [h] at hm ⊢; exact if_pos hm)
    · rcases Opcode.isFpLoad_cases h with h | h | h <;> (rw [h] at hm ⊢; exact if_pos hm)
    · rcases Opcode.isFpStore_cases h with h | h | h <;> (rw [h] at hm ⊢; exact if_pos hm)
  unfold doRvop
  simp only [hexec]
  rfl

/-- The access depends on the registers and the memory only. -/
theorem byteAccess_data (h : s'.data = s.data) : (byteAccess ir a s').data = (byteAccess ir a s).data := by
  obtain ⟨hX, hfpu, hmem⟩ : s'.X = s.X ∧ s'.fpu = s.fpu ∧ s'.mem = s.mem := by
    simpa [Cpu.data] using h
  unfold byteAccess
  split
  all_goals
    simp only [Cpu.data, Cpu.setX, Cpu.wordAt, Cpu.halfAt, Cpu.memReadB, Cpu.putWord, Cpu.putHalf, Cpu.memWriteB,
      hX, hfpu, hmem]

/-- What the default handler does in M-mode: an integer access is made, a floating-point one is skipped. -/
theorem trapDefaultHandler_access (hop : ir.opcode.isAccess = true)
    (hcause : s.csr.mcause = ir.opcode.misalignCause.code)
    (hdec : rvDecode env.extC (s.ifetch s.csr.mepc) = .ok ir) :
    trapDefaultHandler env s =
      skipInsn (if ir.opcode.isIntLoad || ir.opcode.isIntStore then byteAccess ir s.csr.mtval s else s) := by
  have hne : s.ifetch s.csr.mepc ≠ 0 := by
    intro hzero
    rw [hzero] at hdec
    generalize env.extC = extC at hdec
    cases extC with
    | false =>
      -- without `EXT_C` a zero word is a byte load
      cases hdec
      cases hop
    | true => cases hdec
  have hstore : Cause.storeMisaligned.code ≠ Cause.loadMisaligned.code := by decide
  unfold trapDefaultHandler
  simp only [hdec, hcause, if_neg hne]
  rw [Opcode.isAccess, Bool.or_eq_true, Bool.or_eq_true, Bool.or_eq_true] at hop
  rcases hop with (h | h) | h | h
  · have hc : ir.opcode.misalignCause = .loadMisaligned := by
      unfold Opcode.misalignCause
      rw [h]
      rfl
    rw [hc, if_pos (.inl rfl), if_pos rfl, emulateMisalignedLoad_int h, h]
    rfl
  · have hc : ir.opcode.misalignCause = .storeMisaligned := by
      rcases Opcode.isIntStore_cases h with h | h | h | h <;> rw [h] <;> rfl
    rw [hc, if_pos (.inr rfl), if_neg hstore, emulateMisalignedStore_int h, h, Bool.or_true]
    rfl
  · have hc : ir.opcode.misalignCause = .loadMisaligned := by
      unfold Opcode.misalignCause
      rw [h, Bool.or_true]
      rfl
    have hint : (ir.opcode.isIntLoad || ir.opcode.isIntStore) = false := by
      rcases Opcode.isFpLoad_cases h with h | h | h <;> rw [h] <;> rfl
    rw [hc, if_pos (.inl rfl), if_pos rfl, emulateMisalignedLoad_fp h, hint]
    rfl
  · have hc : ir.opcode.misalignCause = .storeMisaligned := by
      rcases Opcode.isFpStore_cases h with h | h | h <;> rw [h] <;> rfl
    have hint : (ir.opcode.isIntLoad || ir.opcode.isIntStore) = false := by
      rcases Opcode.isFpStore_cases h with h | h | h <;> rw [h] <;> rfl
    rw [hc, if_pos (.inr rfl), if_neg hstore, emulateMisalignedStore_fp h, hint]
    rfl

theorem byteAccess_skip : (skipInsn (byteAccess ir a s)).data = (byteAccess ir a s).data ∧
    (skipInsn (byteAccess ir a s)).PC = s.csr.mepc + if s.compressed then 2 else 4 := by
  refine ⟨rfl, ?_⟩
  unfold byteAccess
  split <;> rfl

/-- The flag the handler sets tells the length of an integer access, but not of a floating-point one. -/
theorem trapCompressed_int (hop : (ir.opcode.isIntLoad || ir.opcode.isIntStore) = true) :
    (if ir.opcode.trapCompressed then 2 else 4 : Word) = ir.opcode.len := by
  rcases Bool.or_eq_true_iff.mp hop with h | h
  · rcases Opcode.isIntLoad_cases h with h | h | h | h | h <;> rw [h] <;> rfl
  · rcases Opcode.isIntStore_cases h with h | h | h | h <;> rw [h] <;> rfl

theorem trapCompressed_fp (hop : (ir.opcode.isFpLoad || ir.opcode.isFpStore) = true) :
    (if ir.opcode.trapCompressed then 2 else 4 : Word) = ir.opcode.len ↔ ir.opcode = .flw ∨ ir.opcode = .fsw := by
  rcases Bool.or_eq_true_iff.mp hop with h | h
  · rcases Opcode.isFpLoad_cases h with h | h | h <;> rw [h] <;> decide
  · rcases Opcode.isFpStore_cases h with h | h | h <;> rw [h] <;> decide

/-- The condition under which a misaligned access is emulated. -/
def Emulates (ir : Insn) (a pc : Word) (s : Cpu) : Prop :=
  if s.isUOrSMode then (byteAccess ir a s).data = s.data ∧ pc + ir.opcode.len = 0
  else (ir.opcode.isIntLoad || ir.opcode.isIntStore) = true ∨
    (ir.opcode = .flw ∨ ir.opcode = .fsw) ∧ (byteAccess ir a s).data = s.data

theorem raise_machine (env : Env) (hmode : s.isUOrSMode = false) (hvec : s.csr.mtvec = 0) (cause : Cause) (a : Word) :
    ∃ s1, raise env cause a s = trapDefaultHandler env s1 ∧ s1.data = s.data ∧ s1.csr.mcause = cause.code ∧
      s1.csr.mtval = a ∧ s1.csr.mepc = s.PC ∧ s1.compressed = s.compressed := by
  have hset : setCauseAndTval cause a s = { s with csr := { s.csr with mcause := cause.code, mtval := a } } := by
    unfold setCauseAndTval
    rw [hmode]
    rfl
  refine ⟨enterMachine (setCauseAndTval cause a s), ?_, ?_⟩
  · have hmode1 : ¬ (setCauseAndTval cause a s).isUOrSMode = true := by
      rw [hset]
      exact Bool.eq_false_iff.mp hmode
    have hvec1 : (setCauseAndTval cause a s).csr.mtvec = 0 := by
      rw [hset]
      exact hvec
    unfold raise trapHandler
    rw [if_neg hmode1, if_pos hvec1]
  · rw [hset]
    exact ⟨rfl, rfl, rfl, rfl, rfl⟩

/-- A trap in U- or S-mode without a trap vector. -/
theorem raise_supervisor (env : Env) (hmode : s.isUOrSMode = true) (hvec : s.csr.stvec = 0) (cause : Cause) (a : Word) :
    (raise env cause a s).data = s.data ∧ (raise env cause a s).PC = 0 := by
  have hset : setCauseAndTval cause a s = { s with csr := { s.csr with scause := cause.code, stval := a } } :=
    if_pos hmode
  have hraise : raise env cause a s = { enterSupervisor (setCauseAndTval cause a s) with PC := 0 } := by
    have hmode1 : (setCauseAndTval cause a s).isUOrSMode = true := by
      rw [hset]
      exact hmode
    have hvec1 : (setCauseAndTval cause a s).csr.stvec = 0 := by
      rw [hset]
      exact hvec
    unfold raise trapHandler
    rw [if_pos hmode1, hvec1]
    rfl
  rw [hraise, hset]
  exact ⟨rfl, rfl⟩

/-- **A misaligned access is emulated** if it is an integer one; a floating-point one is not, unless its
destination has the value already and it is not compressed. In U- and S-mode the trap goes to address 0. -/
theorem misaligned_emulated_iff (ir : Insn) (hallow : env.allowMisalign = false) (hop : ir.opcode.isAccess = true)
    (hmis : ir.accessAddr s.X &&& ir.opcode.accessMask ≠ 0) (hdec : rvDecode env.extC (s.ifetch pc) = .ok ir)
    (hmtvec : s.csr.mtvec = 0) (hstvec : s.csr.stvec = 0) :
    Emulated { ir with pc } (ir.accessAddr s.X) pc s (execInsn env { ir with pc } lk noNext cycle pc s) ↔
      Emulates ir (ir.accessAddr s.X) pc s := by
  have htrap : doRvop env { ir with pc } lk noNext cycle pc s =
      .trap ⟨ir.opcode.misalignCause, ir.accessAddr s.X, .retFalse⟩
        ({ s with compressed := ir.opcode.trapCompressed }.save (cycle + 1) pc) :=
    doRvop_misaligned hallow hop hmis
  unfold execInsn Emulates Emulated
  rw [htrap]
  change (raise env _ _ _).data = (byteAccess ir (ir.accessAddr s.X) s).data ∧
    (raise env _ _ _).PC = pc + ir.opcode.len ↔ _
  cases hmode : s.isUOrSMode with
  | true =>
    obtain ⟨hdata, hpc⟩ := raise_supervisor env
      (s := { s with compressed := ir.opcode.trapCompressed }.save (cycle + 1) pc) hmode hstvec
      ir.opcode.misalignCause (ir.accessAddr s.X)
    rw [hdata, hpc, if_pos rfl]
    exact and_congr eq_comm eq_comm
  | false =>
    obtain ⟨s1, hraise, hdata, hcause, htval, hepc, hcomp⟩ := raise_machine env
      (s := { s with compressed := ir.opcode.trapCompressed }.save (cycle + 1) pc) hmode hmtvec
      ir.opcode.misalignCause (ir.accessAddr s.X)
    have hdata' : s1.data = s.data := hdata
    have hfetch : s1.ifetch s1.csr.mepc = s.ifetch pc := by
      have hmem : s1.mem = s.mem := congrArg (fun d => d.2.2) hdata'
      rw [hepc]
      unfold Cpu.ifetch
      rw [hmem]
      rfl
    have hlen : s1.csr.mepc + (if s1.compressed then 2 else 4) =
        pc + if ir.opcode.trapCompressed then 2 else 4 := by
      rw [hepc, hcomp]
      rfl
    rw [hraise, trapDefaultHandler_access hop hcause (hfetch ▸ hdec), htval, if_neg Bool.false_ne_true]
    cases hint : ir.opcode.isIntLoad || ir.opcode.isIntStore with
    | true =>
      rw [if_pos rfl, byteAccess_skip.1, byteAccess_skip.2, hlen, trapCompressed_int hint]
      exact iff_of_true ⟨byteAccess_data hdata', rfl⟩ (.inl rfl)
    | false =>
      have hfp : (ir.opcode.isFpLoad || ir.opcode.isFpStore) = true := by
        rw [Opcode.isAccess, hint] at hop
        exact hop
      rw [if_neg Bool.false_ne_true]
      change s1.data = _ ∧ s1.csr.mepc + (if s1.compressed then 2 else 4) = _ ↔ _
      rw [hlen, hdata', BitVec.add_right_inj, trapCompressed_fp hfp, and_comm]
      constructor
      · exact fun h => .inr ⟨h.1, h.2.symm⟩
      · rintro (h | h)
        · exact absurd h Bool.false_ne_true
        · exact ⟨h.1, h.2.symm⟩

end Insn

/-- The instruction at address 0, with the stack pointer at 1. -/
def oneInsn (insn : Word) : Cpu := (Cpu.zero (Mem.writeW (fun _ => 0) 0 insn)).setX 2 1

theorem misaligned_emulated_lw :
    Emulated { opcode := .lw, rd := 5, imm := 1 } 1 0 (oneInsn 0x00102283)
      (execInsn (Env.bare false) { opcode := .lw, rd := 5, imm := 1 } {} true 0 0 (oneInsn 0x00102283)) :=
  (misaligned_emulated_iff { opcode := .lw, rd := 5, imm := 1 } (s := oneInsn 0x00102283) rfl rfl
    (by decide) rfl rfl rfl).mpr (.inl rfl)

/-- `flw f5, 1(x0)` does not load anything, and `c.flwsp f5, 0(sp)` also skips the instruction behind it. -/
theorem flw_not_emulated :
    rvDecode true 0x00102287 = .ok { opcode := .flw, rd := 5, imm := 1 } ∧
      rvDecode true 0x6282 = .ok { opcode := .cflwsp, rd := 5 } ∧
      ¬ Emulated { opcode := .flw, rd := 5, imm := 1 } 1 0 (oneInsn 0x00102287)
        (execInsn (Env.bare false) { opcode := .flw, rd := 5, imm := 1 } {} true 0 0 (oneInsn 0x00102287)) ∧
      ¬ Emulated { opcode := .cflwsp, rd := 5 } 1 0 (oneInsn 0x6282)
        (execInsn (Env.bare false) { opcode := .cflwsp, rd := 5 } {} true 0 0 (oneInsn 0x6282)) := by
  refine ⟨rfl, rfl, ?_, ?_⟩
  · intro h
    have hF := congrArg (fun d => d.2.1.F 5) h.1
    exact absurd hF (by decide +kernel)
  · intro h
    exact absurd h.2 (by decide +kernel)

end Rv32emu
