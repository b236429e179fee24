import Rv32emu.Machine

/-!
# Traps of the user-mode build

* `Cause` : `enum TRAP_CODE`; `INSN_MISALIGNED` exists only without `EXT_C`;
* `setCauseAndTval`, `trapHandler`, `raise` : `SET_CAUSE_AND_TVAL_THEN_TRAP` and `_trap_handler`;
* `trapDefaultHandler` : without a trap vector a misaligned access is emulated by re-decoding the
  instruction at `mepc`, and any other trap skips the instruction;
* `Trap`, `Trap.take` : a trap raised by an instruction handler, with what the handler does next.
-/

namespace Rv32emu

inductive Cause
  | insnMisaligned | illegalInsn | breakpoint | loadMisaligned | storeMisaligned | ecallM
  deriving DecidableEq, Repr

def Cause.code : Cause → Word
  | .insnMisaligned => 0
  | .illegalInsn => 2
  | .breakpoint => 3
  | .loadMisaligned => 4
  | .storeMisaligned => 6
  | .ecallM => 11

/-- `RV_PRIV_IS_U_OR_S_MODE`. -/
def Cpu.isUOrSMode (s : Cpu) : Bool := s.privMode.ule 1

/-- `m/scause` and `m/stval` of `SET_CAUSE_AND_TVAL_THEN_TRAP`. -/
def setCauseAndTval (cause : Cause) (tval : Word) (s : Cpu) : Cpu :=
  if s.isUOrSMode then { s with csr := { s.csr with scause := cause.code, stval := tval } }
  else { s with csr := { s.csr with mcause := cause.code, mtval := tval } }

/-! ## Emulation of misaligned accesses -/

/-- `emulate_misaligned_load`; `none` is the return value `false`. -/
def emulateMisalignedLoad (s : Cpu) (ir : Insn) (addr : Word) : Option Cpu :=
  let half : Word := (s.memReadB addr).setWidth 32 ||| (s.memReadB (addr + 1)).setWidth 32 <<< 8
  match ir.opcode with
  | .lw | .clw | .clwsp =>
    let value : Word :=
      if addr &&& 1 = 0 then
        (s.memReadS addr).setWidth 32 ||| (s.memReadS (addr + 2)).setWidth 32 <<< 16
      else
        half ||| (s.memReadB (addr + 2)).setWidth 32 <<< 16 |||
          (s.memReadB (addr + 3)).setWidth 32 <<< 24
    some (s.setX ir.rd value)
  | .lh => some (s.setX ir.rd (signExtendH half))
  | .lhu => some (s.setX ir.rd half)
  | _ => none

/-- `emulate_misaligned_store`; `none` is the return value `false`. -/
def emulateMisalignedStore (s : Cpu) (ir : Insn) (addr : Word) : Option Cpu :=
  let value := s.X ir.rs2
  match ir.opcode with
  | .sw | .csw | .cswsp =>
    if addr &&& 1 = 0 then
      some ((s.memWriteS addr (value.setWidth 16)).memWriteS (addr + 2) ((value >>> 16).setWidth 16))
    else
      some ((((s.memWriteB addr (value.setWidth 8)).memWriteB (addr + 1)
        ((value >>> 8).setWidth 8)).memWriteB (addr + 2) ((value >>> 16).setWidth 8)).memWriteB
          (addr + 3) ((value >>> 24).setWidth 8))
  | .sh =>
    some ((s.memWriteB addr (value.setWidth 8)).memWriteB (addr + 1) ((value >>> 8).setWidth 8))
  | _ => none

/-- `rv->csr_mepc += rv->compressed ? 2 : 4; rv->PC = rv->csr_mepc`. -/
def skipInsn (s : Cpu) : Cpu :=
  let mepc := s.csr.mepc + if s.compressed then 2 else 4
  { s with csr := { s.csr with mepc }, PC := mepc }

def trapDefaultHandler (env : Env) (s : Cpu) : Cpu :=
  if s.csr.mcause = Cause.loadMisaligned.code ∨ s.csr.mcause = Cause.storeMisaligned.code then
    let insn := s.ifetch s.csr.mepc
    if insn = 0 then skipInsn s
    else match rvDecode env.extC insn with
      | .abort => { s with aborted := true }
      | .illegal _ => skipInsn s
      | .ok ir =>
        let handled :=
          if s.csr.mcause = Cause.loadMisaligned.code then emulateMisalignedLoad s ir s.csr.mtval
          else emulateMisalignedStore s ir s.csr.mtval
        skipInsn (handled.getD s)
  else skipInsn s

/-! ## `_trap_handler` -/

/-- The `switch` on the vector mode. -/
def vectorTo (base mode cause : Word) (s : Cpu) : Cpu :=
  if mode = 0 then { s with PC := base }
  else if mode = 1 then { s with PC := base + 4 * (cause &&& 0x7fffffff) }
  else s

/-- The supervisor-mode half up to the vector: `sstatus`, `sepc` and the privilege mode. -/
def enterSupervisor (s : Cpu) : Cpu :=
  let sie : Word := (s.csr.sstatus &&& 0x2) >>> 1
  let sstatus : Word := ((s.csr.sstatus ||| sie <<< 5) &&& ~~~(0x2 : Word)) ||| s.privMode <<< 8
  { s with csr := { s.csr with sstatus, sepc := s.PC }, privMode := 1 }

def enterMachine (s : Cpu) : Cpu :=
  let mie : Word := (s.csr.mstatus &&& 0x8) >>> 3
  let mstatus : Word := ((s.csr.mstatus ||| mie <<< 7) &&& ~~~(0x8 : Word)) ||| s.privMode <<< 11
  { s with csr := { s.csr with mstatus, mepc := s.PC }, privMode := 3 }

/-- `_trap_handler`; the machine-mode half falls back to `trapDefaultHandler`. -/
def trapHandler (env : Env) (s : Cpu) : Cpu :=
  if s.isUOrSMode then
    vectorTo (s.csr.stvec &&& ~~~0x3) (s.csr.stvec &&& 0x3) s.csr.scause (enterSupervisor s)
  else if s.csr.mtvec = 0 then trapDefaultHandler env (enterMachine s)
  else vectorTo (s.csr.mtvec &&& ~~~0x3) (s.csr.mtvec &&& 0x3) s.csr.mcause (enterMachine s)

/-- `SET_CAUSE_AND_TVAL_THEN_TRAP`. -/
def raise (env : Env) (cause : Cause) (tval : Word) (s : Cpu) : Cpu :=
  trapHandler env (setCauseAndTval cause tval s)

/-! ## Traps raised by handlers -/

/-- What a handler does once its trap has been taken: a misaligned access returns `false`,
`ebreak_handler` returns `true`, and `ecall_handler` goes on to `syscall_handler`. -/
inductive AfterTrap
  | retFalse | retTrue | syscall
  deriving DecidableEq, Repr

structure Trap where
  cause : Cause
  tval : Word
  after : AfterTrap
  deriving DecidableEq, Repr

/-- Take the trap in a state where `rv->PC` and `csr_cycle` are already saved. A system call has no
access to the file-scope variables of `emulate.c`. -/
def Trap.take (env : Env) (t : Trap) (s : Cpu) : Cpu × Bool :=
  let s := raise env t.cause t.tval s
  match t.after with
  | .retFalse => (s, false)
  | .retTrue => (s, true)
  | .syscall =>
    ({ env.syscallHandler s.host s with
        host := s.host + 1, isBranchTaken := s.isBranchTaken, lastPc := s.lastPc }, true)

end Rv32emu
