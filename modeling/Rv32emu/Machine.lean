import Rv32emu.Decode

/-!
# `riscv_t` of the user-mode build

The part of `struct riscv_internal` that the instruction handlers read and write, together with the
file-scope variables of `emulate.c` and the SoftFloat globals.

* `Mem` : guest RAM as bytes at an offset from `mem_base`; an access is a `memcpy` at
  `mem_base + addr`, so the four bytes of a word never wrap at 2^32;
* `Fpu`, `Csr`, `Cpu` : the machine state;
* `SoftFloat`, `Env` : what the handlers call outside the interpreter;
* `csrCsrrw`, `csrCsrrs`, `csrCsrrc` : the CSR operations, through `csrGetPtr`.
-/

namespace Rv32emu

abbrev Byte := BitVec 8

/-! ## Guest RAM -/

/-- Bytes of guest RAM, by offset from `mem_base`. -/
abbrev Mem := BitVec 64 → Byte

def memOff (addr : Word) : BitVec 64 := addr.setWidth 64

namespace Mem

def readB (m : Mem) (a : BitVec 64) : Byte := m a
def readS (m : Mem) (a : BitVec 64) : BitVec 16 := m (a + 1) ++ m a
def readW (m : Mem) (a : BitVec 64) : Word := m (a + 3) ++ m (a + 2) ++ m (a + 1) ++ m a

def writeB (m : Mem) (a : BitVec 64) (v : Byte) : Mem := Function.update m a v

def writeS (m : Mem) (a : BitVec 64) (v : BitVec 16) : Mem :=
  (m.writeB a (v.extractLsb' 0 8)).writeB (a + 1) (v.extractLsb' 8 8)

def writeW (m : Mem) (a : BitVec 64) (v : Word) : Mem :=
  (((m.writeB a (v.extractLsb' 0 8)).writeB (a + 1) (v.extractLsb' 8 8)).writeB (a + 2)
    (v.extractLsb' 16 8)).writeB (a + 3) (v.extractLsb' 24 8)

theorem readW_writeW (m : Mem) (a : BitVec 64) (v : Word) : (m.writeW a v).readW a = v := by
  have hne {x y : BitVec 64} (h : x ≠ y) : a + x ≠ a + y := by simpa using h
  have hne0 {x : BitVec 64} (h : x ≠ 0) : a ≠ a + x := by
    intro hc
    exact h (by simpa using hc.symm)
  have hcat : v.extractLsb' 24 8 ++ v.extractLsb' 16 8 ++ v.extractLsb' 8 8 ++ v.extractLsb' 0 8 = v := by
    apply BitVec.eq_of_getLsbD_eq
    intro i hi
    simp only [BitVec.getLsbD_append]
    interval_cases i <;> simp
  unfold readW writeW writeB
  simp only [Function.update_self, Function.update_of_ne (hne (show (2 : BitVec 64) ≠ 3 by decide)),
    Function.update_of_ne (hne (show (1 : BitVec 64) ≠ 3 by decide)),
    Function.update_of_ne (hne (show (1 : BitVec 64) ≠ 2 by decide)),
    Function.update_of_ne (hne0 (show (3 : BitVec 64) ≠ 0 by decide)),
    Function.update_of_ne (hne0 (show (2 : BitVec 64) ≠ 0 by decide)),
    Function.update_of_ne (hne0 (show (1 : BitVec 64) ≠ 0 by decide))]
  exact hcat

theorem readW_writeW_of_ne (m : Mem) {a b : BitVec 64} (v : Word) (ha : a.toNat % 4 = 0) (hb : b.toNat % 4 = 0)
    (hne : a ≠ b) : (m.writeW a v).readW b = m.readW b := by
  have hne' : a.toNat ≠ b.toNat := fun h => hne (BitVec.eq_of_toNat_eq h)
  have hbyte {x y : BitVec 64} (hx : x.toNat < 4) (hy : y.toNat < 4) : b + x ≠ a + y := by
    intro h
    have heq := congrArg BitVec.toNat h
    rw [BitVec.toNat_add, BitVec.toNat_add] at heq
    have := a.isLt
    have := b.isLt
    omega
  have hbyte1 {x : BitVec 64} (hx : x.toNat < 4) : b + x ≠ a := by
    have h := hbyte (x := x) (y := 0#64) hx (by decide)
    rwa [BitVec.add_zero] at h
  have hother (x : BitVec 64) (hx : x.toNat < 4) : (m.writeW a v) (b + x) = m (b + x) := by
    unfold writeW writeB
    rw [Function.update_of_ne (hbyte hx (by decide)), Function.update_of_ne (hbyte hx (by decide)),
      Function.update_of_ne (hbyte hx (by decide)), Function.update_of_ne (hbyte1 hx)]
  have hfirst := hother 0#64 (by decide)
  rw [BitVec.add_zero] at hfirst
  unfold readW
  rw [hother 3 (by decide), hother 2 (by decide), hother 1 (by decide), hfirst]

end Mem

/-! ## State -/

inductive RoundingMode
  | nearEven | minMag | min | max | nearMaxMag
  deriving DecidableEq, Repr

/-- The floating-point registers, `csr_fcsr` and the SoftFloat globals. -/
structure Fpu where
  F : Reg → Word
  fcsr : Word
  roundingMode : RoundingMode
  exceptionFlags : BitVec 8

/-- The `csr_*` fields other than `csr_fcsr`. -/
structure Csr where
  cycle : BitVec 64
  time0 : Word
  time1 : Word
  mstatus : Word
  mtvec : Word
  misa : Word
  mtval : Word
  mcause : Word
  mscratch : Word
  mepc : Word
  mip : Word
  mideleg : Word
  medeleg : Word
  sstatus : Word
  stvec : Word
  sip : Word
  sie : Word
  scounteren : Word
  sscratch : Word
  sepc : Word
  scause : Word
  stval : Word
  satp : Word

/-- The machine, with the file-scope `is_branch_taken` and `last_pc`. `host` counts the calls into
the host (clock, system calls), whose answers `Env` indexes by it; `aborted` says that an `assert`
has ended the process. -/
structure Cpu where
  X : Reg → Word
  PC : Word
  mem : Mem
  fpu : Fpu
  csr : Csr
  privMode : Word
  compressed : Bool
  halt : Bool
  timer : BitVec 64
  onExit : Bool
  isBranchTaken : Bool
  lastPc : Word
  host : Nat
  aborted : Bool

namespace Cpu

/-- `rv->X[r] = v`. -/
def setX (s : Cpu) (r : Reg) (v : Word) : Cpu := { s with X := Function.update s.X r v }

/-- `rv->csr_cycle = cycle; rv->PC = PC`. -/
def save (s : Cpu) (cycle : BitVec 64) (pc : Word) : Cpu :=
  { s with csr := { s.csr with cycle }, PC := pc }

def memReadB (s : Cpu) (addr : Word) : Byte := s.mem.readB (memOff addr)
def memReadS (s : Cpu) (addr : Word) : BitVec 16 := s.mem.readS (memOff addr)
def memReadW (s : Cpu) (addr : Word) : Word := s.mem.readW (memOff addr)
def memWriteB (s : Cpu) (addr : Word) (v : Byte) : Cpu :=
  { s with mem := s.mem.writeB (memOff addr) v }
def memWriteS (s : Cpu) (addr : Word) (v : BitVec 16) : Cpu :=
  { s with mem := s.mem.writeS (memOff addr) v }
def memWriteW (s : Cpu) (addr : Word) (v : Word) : Cpu :=
  { s with mem := s.mem.writeW (memOff addr) v }

def ifetch (s : Cpu) (addr : Word) : Word := s.mem.readW (memOff addr)

end Cpu

/-! ## The environment -/

/-- The SoftFloat entry points: a result and the exception flags raised. -/
structure SoftFloat where
  mulAdd : RoundingMode → Word → Word → Word → Word × BitVec 8
  add : RoundingMode → Word → Word → Word × BitVec 8
  sub : RoundingMode → Word → Word → Word × BitVec 8
  mul : RoundingMode → Word → Word → Word × BitVec 8
  div : RoundingMode → Word → Word → Word × BitVec 8
  sqrt : RoundingMode → Word → Word × BitVec 8
  toI32 : RoundingMode → Word → Word × BitVec 8
  toUi32 : RoundingMode → Word → Word × BitVec 8
  ofI32 : RoundingMode → Word → Word × BitVec 8
  ofUi32 : RoundingMode → Word → Word × BitVec 8
  eq : Word → Word → Bool × BitVec 8
  lt : Word → Word → Bool × BitVec 8
  le : Word → Word → Bool × BitVec 8
  ltQuiet : Word → Word → Bool × BitVec 8
  isSignalingNaN : Word → Bool

/-- The build configuration and the code outside the interpreter. `gettimeofday` and
`syscallHandler` receive the number of earlier calls into the host. -/
structure Env where
  extC : Bool
  allowMisalign : Bool
  exitAddr : Word
  fp : SoftFloat
  gettimeofday : Nat → BitVec 64
  syscallHandler : Nat → Cpu → Cpu

/-- A host for closed runs that reach neither floating point nor the outside. -/
def Env.bare (allowMisalign : Bool) : Env where
  extC := true
  allowMisalign := allowMisalign
  exitAddr := 0
  fp := ⟨fun _ _ _ _ => (0, 0), fun _ _ _ => (0, 0), fun _ _ _ => (0, 0), fun _ _ _ => (0, 0),
    fun _ _ _ => (0, 0), fun _ _ => (0, 0), fun _ _ => (0, 0), fun _ _ => (0, 0), fun _ _ => (0, 0),
    fun _ _ => (0, 0), fun _ _ => (false, 0), fun _ _ => (false, 0), fun _ _ => (false, 0),
    fun _ _ => (false, 0), fun _ => false⟩
  gettimeofday := fun _ => 0
  syscallHandler := fun _ s => s

/-- A zeroed machine in M-mode with the given memory. -/
def Cpu.zero (mem : Mem) : Cpu where
  X := fun _ => 0
  PC := 0
  mem := mem
  fpu := ⟨fun _ => 0, 0, .nearEven, 0⟩
  csr := ⟨0, 0, 0, 0, 0, 0, 0, 0, 0, 0, 0, 0, 0, 0, 0, 0, 0, 0, 0, 0, 0, 0, 0⟩
  privMode := 3
  compressed := false
  halt := false
  timer := 0
  onExit := false
  isBranchTaken := false
  lastPc := 0
  host := 0
  aborted := false

/-! ## Control and status registers -/

inductive CsrPtr
  | mstatus | mtvec | misa | medeleg | mideleg | mscratch | mepc | mcause | mtval | mip
  | cycle | cycleh | time | timeh | fcsr | sstatus | sie | stvec | scounteren | sscratch
  | sepc | scause | stval | sip | satp
  deriving DecidableEq, Repr

/-- The `switch` of `csr_get_ptr`. `csr_mie` and the read-only identification registers have no
case. -/
def csrGetPtr (csr : Word) : Option CsrPtr :=
  match (csr &&& 0xfff).toNat with
  | 0x300 => some .mstatus
  | 0x305 => some .mtvec
  | 0x301 => some .misa
  | 0x302 => some .medeleg
  | 0x303 => some .mideleg
  | 0x340 => some .mscratch
  | 0x341 => some .mepc
  | 0x342 => some .mcause
  | 0x343 => some .mtval
  | 0x344 => some .mip
  | 0xc00 => some .cycle
  | 0xc80 => some .cycleh
  | 0xc01 => some .time
  | 0xc81 => some .timeh
  | 0xc02 => some .cycle
  | 0xc82 => some .cycleh
  | 0x001 => some .fcsr
  | 0x003 => some .fcsr
  | 0x100 => some .sstatus
  | 0x104 => some .sie
  | 0x105 => some .stvec
  | 0x106 => some .scounteren
  | 0x140 => some .sscratch
  | 0x141 => some .sepc
  | 0x142 => some .scause
  | 0x143 => some .stval
  | 0x144 => some .sip
  | 0x180 => some .satp
  | _ => none

def updateTime (env : Env) (s : Cpu) : Cpu :=
  let timer := env.gettimeofday s.host
  { s with timer, host := s.host + 1,
           csr := { s.csr with time0 := timer.setWidth 32, time1 := (timer >>> 32).setWidth 32 } }

/-- The side effect `csr_get_ptr` has before it returns a pointer. -/
def csrTouch (env : Env) (s : Cpu) : CsrPtr → Cpu
  | .time | .timeh => updateTime env s
  | _ => s

/-- `*c`. -/
def csrRead (s : Cpu) : CsrPtr → Word
  | .mstatus => s.csr.mstatus
  | .mtvec => s.csr.mtvec
  | .misa => s.csr.misa
  | .medeleg => s.csr.medeleg
  | .mideleg => s.csr.mideleg
  | .mscratch => s.csr.mscratch
  | .mepc => s.csr.mepc
  | .mcause => s.csr.mcause
  | .mtval => s.csr.mtval
  | .mip => s.csr.mip
  | .cycle => s.csr.cycle.setWidth 32
  | .cycleh => (s.csr.cycle >>> 32).setWidth 32
  | .time => s.csr.time0
  | .timeh => s.csr.time1
  | .fcsr => s.fpu.fcsr
  | .sstatus => s.csr.sstatus
  | .sie => s.csr.sie
  | .stvec => s.csr.stvec
  | .scounteren => s.csr.scounteren
  | .sscratch => s.csr.sscratch
  | .sepc => s.csr.sepc
  | .scause => s.csr.scause
  | .stval => s.csr.stval
  | .sip => s.csr.sip
  | .satp => s.csr.satp

/-- `*c = v`; `cycle` and `cycleh` are the two halves of the 64-bit counter. -/
def csrWrite (s : Cpu) (v : Word) : CsrPtr → Cpu
  | .mstatus => { s with csr := { s.csr with mstatus := v } }
  | .mtvec => { s with csr := { s.csr with mtvec := v } }
  | .misa => { s with csr := { s.csr with misa := v } }
  | .medeleg => { s with csr := { s.csr with medeleg := v } }
  | .mideleg => { s with csr := { s.csr with mideleg := v } }
  | .mscratch => { s with csr := { s.csr with mscratch := v } }
  | .mepc => { s with csr := { s.csr with mepc := v } }
  | .mcause => { s with csr := { s.csr with mcause := v } }
  | .mtval => { s with csr := { s.csr with mtval := v } }
  | .mip => { s with csr := { s.csr with mip := v } }
  | .cycle => { s with csr := { s.csr with cycle := (s.csr.cycle >>> 32).setWidth 32 ++ v } }
  | .cycleh => { s with csr := { s.csr with cycle := v ++ s.csr.cycle.setWidth 32 } }
  | .time => { s with csr := { s.csr with time0 := v } }
  | .timeh => { s with csr := { s.csr with time1 := v } }
  | .fcsr => { s with fpu := { s.fpu with fcsr := v } }
  | .sstatus => { s with csr := { s.csr with sstatus := v } }
  | .sie => { s with csr := { s.csr with sie := v } }
  | .stvec => { s with csr := { s.csr with stvec := v } }
  | .scounteren => { s with csr := { s.csr with scounteren := v } }
  | .sscratch => { s with csr := { s.csr with sscratch := v } }
  | .sepc => { s with csr := { s.csr with sepc := v } }
  | .scause => { s with csr := { s.csr with scause := v } }
  | .stval => { s with csr := { s.csr with stval := v } }
  | .sip => { s with csr := { s.csr with sip := v } }
  | .satp => { s with csr := { s.csr with satp := v } }

def csrSyncCycle (s : Cpu) (csr : Word) (cycle : BitVec 64) : Cpu :=
  match (csr &&& 0xfff).toNat with
  | 0xc00 | 0xc80 | 0xc02 | 0xc82 | 0xc01 | 0xc81 => { s with csr := { s.csr with cycle } }
  | _ => s

/-- The shape `csr_csrrw`, `csr_csrrs` and `csr_csrrc` share: the old value, masked for `fflags`,
and the update of the storage. -/
def csrUpdate (env : Env) (f : Word → Word) (csr : Word) (cycle : BitVec 64) (s : Cpu) :
    Word × Cpu :=
  let s := csrSyncCycle s csr cycle
  match csrGetPtr csr with
  | none => (0, s)
  | some c =>
    let s := csrTouch env s c
    let old := csrRead s c
    (if csr = 1 then old &&& 0x1f else old, csrWrite s (f old) c)

def csrCsrrw (env : Env) (csr val : Word) : BitVec 64 → Cpu → Word × Cpu :=
  csrUpdate env (fun _ => val) csr

def csrCsrrs (env : Env) (csr val : Word) : BitVec 64 → Cpu → Word × Cpu :=
  csrUpdate env (fun old => old ||| val) csr

def csrCsrrc (env : Env) (csr val : Word) : BitVec 64 → Cpu → Word × Cpu :=
  csrUpdate env (fun old => old &&& ~~~val) csr

end Rv32emu
