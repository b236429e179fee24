import Rv32emu.Fusion
import Rv32emu.Mmu

/-!
# The instruction handlers of the `SYSTEM` builds

The rows of `rv32_template.c` are those of `rvop`; what a `SYSTEM` build does differently around them
is here: memory goes through the I/O callbacks, a handler that has been interrupted by a page fault
returns early, chaining is suspended while a trap is being handled, and a trap runs the guest's handler
in a nested interpreter.

* `SysFlow`, `Code.sysExec`, `sysRvop` : the handler bodies and the `RVOP` macro;
* `SysCtl` : how a handler ends; `signal` is the early return after `need_handle_signal`;
* `sysImpl` : the handler of any node, fused or not;
* `trapHandlerWith`, `trapLoop`, `sysRaise` : `_trap_handler`, `__trap_handler` and
  `SET_CAUSE_AND_TVAL_THEN_TRAP`.
-/

namespace Rv32emu

/-! ## Handler bodies -/

/-- How the code of an `RVOP` ends. -/
inductive SysFlow
  /-- Runs to its end, where `need_handle_signal` is tested. -/
  | done
  /-- `goto nextop`, past the test. -/
  | nextop
  | endOp (pc : Word)
  /-- `LOOKUP_OR_UPDATE_BRANCH_HISTORY_TABLE(); goto end_op`. -/
  | lookup (pc : Word)
  /-- A tail call through a link, `last_pc` updated. -/
  | chain (r : Ref) (pc : Word)
  | ret (ok : Bool)

inductive SysCtl
  | next (cycle : BitVec 64) (pc : Word)
  | enter (r : Ref) (cycle : BitVec 64) (pc : Word)
  | lookup (cycle : BitVec 64) (pc : Word)
  | ret (ok : Bool)
  /-- `need_handle_signal` was set: `true` is returned with `rv->PC` and `csr_cycle` as they are. -/
  | signal

section Exec

variable (env : SysEnv) (raise : Raise)

/-- The trap of `RV_EXC_MISALIGN_HANDLER`. -/
def sysMisalign (cause : SysCause) (tval : Word) (compress : Bool) (cycle : BitVec 64) (pc : Word) :
    SysM SysFlow := do
  modifyCpu fun s => { s with compressed := compress }.save cycle pc
  raise cause tval
  return .ret false

/-- Follow a link if it is set and no trap is being handled. -/
def sysChainOr (link : Option Ref) (pc : Word) : SysM SysFlow := do
  match link, (← get).isTrapped with
  | some r, false =>
    modifyCpu fun s => { s with lastPc := pc }
    return .chain r pc
  | _, _ => return .endOp pc

/-- `if (!rv->is_trapped) is_branch_taken = taken`. -/
def setBranchTaken (taken : Bool) : SysM Unit :=
  modify fun s => if s.isTrapped then s else { s with cpu := { s.cpu with isBranchTaken := taken } }

def doSret (s : Sys) : Sys :=
  let sstatus := s.cpu.csr.sstatus &&& ~~~(0x100 : Word)
  let spie : Word := (sstatus &&& 0x20) >>> 5
  { s with
    isTrapped := false
    cpu := { s.cpu with
      privMode := (s.cpu.csr.sstatus &&& 0x100) >>> 8, PC := s.cpu.csr.sepc,
      csr := { s.cpu.csr with sstatus := sstatus ||| spie <<< 1 ||| 0x20 } } }

/-- What a CSR access does besides reading and writing: a change of `satp` flushes the TLBs, and
`csr_csrrw` on `satp` asks for the block map to be cleared. -/
def csrSideEffects (ir : Insn) (old : Word) (s : Sys) : Sys :=
  if csrGetPtr ir.imm = some .satp then
    let s := if s.cpu.csr.satp ≠ old then s.tlbFlushAll else s
    if ir.opcode = .csrrw ∨ ir.opcode = .csrrwi then { s with needClearBlockMap := true } else s
  else s

theorem csrSideEffects_cpu (ir : Insn) (old : Word) (s : Sys) : (csrSideEffects ir old s).cpu = s.cpu := by
  unfold csrSideEffects
  split_ifs <;> rfl

/-- The SDL system calls that `ecall_handler` intercepts in U-mode. -/
def isSdlCall (a7 : Word) : Bool :=
  a7 = 0xbeef ∨ a7 = 0xc0de ∨ a7 = 0xfeed ∨ a7 = 0xbabe ∨ a7 = 0xd00d

/-- `rv->PC += 4`. -/
def advancePc : SysM Unit := modifyCpu fun s => { s with PC := s.PC + 4 }

def ecallHandler : SysM Unit := do
  let s := (← get).cpu
  if env.elfLoader then
    advancePc
    modifyCpu (Cpu.callHost env.syscallHandler)
  else if s.privMode = 0 then
    if isSdlCall (s.X regA7) then
      modifyCpu (Cpu.callHost env.syscallHandler)
      advancePc
    else raise .ecallU 0
  else if s.privMode = 1 then
    advancePc
    modifyCpu (Cpu.callHost env.syscallHandler)

/-- The part of `jalr` after the branch history lookup: the exit from the handler that enables the
MMU. -/
def relocateEnableMmu (s : Sys) : Sys :=
  if !s.relocEnableMmu && s.relocEnableMmuJalrAddr = 0xc00000b4 then
    { s with relocEnableMmu := true, needRetranslate := true, isTrapped := false }
  else s

/-- `LOOKUP_OR_UPDATE_BRANCH_HISTORY_TABLE` is passed over while a trap is handled and once the MMU is
being enabled. -/
def sysLookup (pc : Word) : SysM SysFlow := do
  let s ← get
  if s.isTrapped || s.relocEnableMmu then return .endOp pc else return .lookup pc

/-- What a body of each shape does, with `rv->PC` synchronised and `cycle` incremented. The shapes that
touch neither memory nor control flow are those of the user-mode build. -/
def Code.sysExec (ir : Insn) (lk : Links) (cycle : BitVec 64) (pc : Word) (code : Code) :
    SysM SysFlow := do
  let s := (← get).cpu
  match code with
  | .set .. | .skip | .fpu .. | .fpuX .. =>
    match code.exec env.toEnv ir lk cycle pc s with
    | .next s =>
      modifyCpu fun _ => s
      return .done
    | _ => failure
  | .load compress mask addr read =>
    let a := addr ir s.X
    if misaligned env.toEnv mask a then sysMisalign raise .loadMisaligned a compress cycle pc
    else
      let v ← mmuRead env raise (mask.toNat + 1) read a
      modifyCpu fun s => s.setX ir.rd v
      return .done
  | .store compress mask addr write =>
    let a := addr ir s.X
    if misaligned env.toEnv mask a then sysMisalign raise .storeMisaligned a compress cycle pc
    else
      mmuWrite env raise (mask.toNat + 1) write a (s.X ir.rs2)
      return .done
  | .lrw =>
    let a := s.X ir.rs1
    if misaligned env.toEnv 3 a then sysMisalign raise .loadMisaligned a false cycle pc
    else
      -- without a destination the word is not read at all
      if ir.rd ≠ 0 then
        let v ← mmuRead env raise 4 Cpu.memReadW a
        modifyCpu fun s => s.setX ir.rd v
      return .done
  | .scw =>
    let a := s.X ir.rs1
    if misaligned env.toEnv 3 a then sysMisalign raise .storeMisaligned a false cycle pc
    else
      mmuWrite env raise 4 Cpu.memWriteW a (s.X ir.rs2)
      modifyCpu fun s => s.setX ir.rd 0
      return .done
  | .amo f =>
    let a := s.X ir.rs1
    if misaligned env.toEnv 3 a then sysMisalign raise .loadMisaligned a false cycle pc
    else
      let value1 ← mmuRead env raise 4 Cpu.memReadW a
      let value2 := (← get).cpu.X ir.rs2
      modifyCpu fun s => s.setXNz ir.rd value1
      mmuWrite env raise 4 Cpu.memWriteW a (f value1 value2)
      return .done
  | .flw addr =>
    let a := addr ir s.X
    if misaligned env.toEnv 3 a then sysMisalign raise .loadMisaligned a false cycle pc
    else
      let v ← mmuRead env raise 4 Cpu.memReadW a
      modifyCpu fun s => { s with fpu := s.fpu.setF ir.rd v }
      return .done
  | .fsw addr =>
    let a := addr ir s.X
    if misaligned env.toEnv 3 a then sysMisalign raise .storeMisaligned a false cycle pc
    else
      mmuWrite env raise 4 Cpu.memWriteW a (s.fpu.F ir.rs2)
      return .done
  | .csr f =>
    -- `update_time` derives the timer from the cycle count, which has just been synchronised
    let timer := cycle + (← get).timerOffset
    let r := f { env.toEnv with gettimeofday := fun _ => timer } ir s.X cycle s
    modifyCpu fun _ => r.2
    modify (csrSideEffects ir s.csr.satp)
    modifyCpu fun s => s.setXNz ir.rd r.1
    return .done
  | .branch untaken =>
    if untaken (s.X ir.rs1) (s.X ir.rs2) then
      setBranchTaken false
      if lk.untaken.isSome then sysChainOr lk.untaken (pc + 4) else return .nextop
    else
      setBranchTaken true
      let target := pc + ir.imm
      if insnMisaligned env.toEnv target then sysMisalign raise .insnMisaligned pc false cycle target
      else sysChainOr lk.taken target
  | .cbranch untaken =>
    -- `is_branch_taken` is written even while a trap is being handled
    if untaken (s.X ir.rs1) then
      modifyCpu fun s => { s with isBranchTaken := false }
      if lk.untaken.isSome then sysChainOr lk.untaken (pc + 2) else return .nextop
    else
      modifyCpu fun s => { s with isBranchTaken := true }
      sysChainOr lk.taken (pc + ir.imm)
  | .jal =>
    modifyCpu fun s => s.setXNz ir.rd (pc + 4)
    let target := pc + ir.imm
    if insnMisaligned env.toEnv target then sysMisalign raise .insnMisaligned pc false cycle target
    else sysChainOr lk.taken target
  | .jalr =>
    let target := (s.X ir.rs1 + ir.imm) &&& ~~~1
    modifyCpu fun s => s.setXNz ir.rd (pc + 4)
    if insnMisaligned env.toEnv target then sysMisalign raise .insnMisaligned pc false cycle target
    else sysLookup target
  | .cjal =>
    modifyCpu fun s => s.setX regRa (pc + 2)
    sysChainOr lk.taken (pc + ir.imm)
  | .cj => sysChainOr lk.taken (pc + ir.imm)
  | .cjr => sysLookup (s.X ir.rs1)
  | .cjalr =>
    modifyCpu fun s => s.setX regRa (pc + 2)
    sysLookup (s.X ir.rs1)
  | .leave =>
    if ir.opcode = .sfencevma then
      modify fun s => if ir.rs1 = 0 then s.tlbFlushAll else s.tlbFlush (s.cpu.X ir.rs1)
    return .endOp (pc + 4)
  | .fencei =>
    modifyCpu fun s => s.save cycle (pc + 4)
    return .ret true
  | .ecall =>
    modifyCpu fun s => { s with compressed := false }.save cycle pc
    ecallHandler env raise
    return .ret true
  | .ebreak compress =>
    modifyCpu fun s => { s with compressed := compress }.save cycle pc
    raise .breakpoint pc
    return .ret true
  | .mret =>
    modifyCpu doMret
    return .ret true
  | .fail =>
    if ir.opcode = .sret then
      modify doSret
      return .ret true
    else return .ret false

/-! ## The `RVOP` macro -/

/-- `rv->csr_cycle = cycle; rv->PC = PC; return ok`. -/
def saveAndReturn (ok : Bool) (cycle : BitVec 64) (pc : Word) : SysM SysCtl := do
  modifyCpu fun s => s.save cycle pc
  return .ret ok

/-- `need_clear_block_map` is tested between two nodes. -/
def clearBlockMapIfNeeded (cycle : BitVec 64) (pc : Word) (k : SysM SysCtl) : SysM SysCtl := do
  if (← get).needClearBlockMap then
    modify fun s => { s with needClearBlockMap := false, blockMapCleared := true }
    saveAndReturn false cycle pc
  else k

def sysEndOp (ir : Insn) (lk : Links) (cycle : BitVec 64) (pc : Word) : SysM SysCtl := do
  match ir.opcode.canBranch, lk.taken, (← get).isTrapped with
  | false, some r, false =>
    modifyCpu fun s => { s with lastPc := pc }
    return .enter r cycle pc
  | _, _, _ => saveAndReturn true cycle pc

/-- The node behind `nextop`; `noNext` is `!ir->next`. -/
def sysNextop (ir : Insn) (lk : Links) (noNext : Bool) (cycle : BitVec 64) (pc : Word) :
    SysM SysCtl := do
  let pc := pc + ir.opcode.len
  clearBlockMapIfNeeded cycle pc do
    if noNext || (← get).isTrapped then sysEndOp ir lk cycle pc else return .next cycle pc

/-- The test of `need_handle_signal` that a handler makes before it goes on. -/
def signalOr (k : SysM SysCtl) : SysM SysCtl := do
  if (← get).needHandleSignal then
    modify fun s => { s with needHandleSignal := false }
    return .signal
  else k

/-- `RVOP(inst, code)`. -/
def sysRvop (ir : Insn) (lk : Links) (noNext : Bool) (cycle : BitVec 64) (pc : Word) :
    SysM SysCtl := do
  modifyCpu fun s => { s with PC := pc }
  let cycle := cycle + 1
  match ← (rvop ir.opcode).sysExec env raise ir lk cycle pc with
  | .done => signalOr (sysNextop ir lk noNext cycle pc)
  | .nextop => sysNextop ir lk noNext cycle pc
  | .endOp pc =>
    if ir.opcode = .jalr then modify relocateEnableMmu
    sysEndOp ir lk cycle pc
  | .lookup pc => return .lookup cycle pc
  | .chain r pc => return .enter r cycle pc
  | .ret ok => return .ret ok

/-! ## Fused handlers -/

def sysFuseNextOrStop (noNext : Bool) (cycle : BitVec 64) (pc : Word) : SysM SysCtl :=
  signalOr <| clearBlockMapIfNeeded cycle pc do
    if noNext || (← get).isTrapped then saveAndReturn true cycle pc else return .next cycle pc

/-- The alignment check of a fused access, followed by `k`. -/
def sysCheckAligned (cause : SysCause) (addr : Word) (cycle : BitVec 64) (pc : Word)
    (k : SysM SysCtl) : SysM SysCtl := do
  if misaligned env.toEnv 3 addr then
    let _ ← sysMisalign raise cause addr false cycle pc
    return .ret false
  else k

/-- The loop of `do_fuse3` and `do_fuse4`. Nothing is tested between two entries. -/
def sysFuseMem (cause : SysCause) (access : OpcodeFuse → Word → SysM Unit) (cycle : BitVec 64)
    (pc : Word) (k : SysM SysCtl) : List OpcodeFuse → SysM SysCtl
  | [] => k
  | f :: fs => do
    let addr := (← get).cpu.X f.rs1 + f.imm
    sysCheckAligned env raise cause addr cycle pc do
      access f addr
      sysFuseMem cause access cycle pc k fs

def sysFuseSw (f : OpcodeFuse) (addr : Word) : SysM Unit := do
  mmuWrite env raise 4 Cpu.memWriteW addr ((← get).cpu.X f.rs2)

def sysFuseLw (f : OpcodeFuse) (addr : Word) : SysM Unit := do
  let v ← mmuRead env raise 4 Cpu.memReadW addr
  modifyCpu fun s => s.setX f.rd v

/-- The handlers without a memory access are those of the user-mode build up to
`fuse_next_or_stop`. -/
def sysFusePure (ir : Insn) (noNext : Bool) (cycle : BitVec 64) (pc : Word) : SysM SysCtl := do
  match impl env.toEnv ir {} false cycle pc (← get).cpu with
  | .next cycle pc s =>
    modifyCpu fun _ => s
    sysFuseNextOrStop noNext cycle pc
  | _ => failure

def sysFuse12 (ir : Insn) (lk : Links) (cycle : BitVec 64) (pc : Word) : SysM SysCtl := do
  let cycle := cycle + 2
  modifyCpu fun s => s.setX ir.rd (s.X ir.rs1 + ir.imm)
  let taken := (← get).cpu.X ir.rd ≠ 0
  modifyCpu fun s => { s with isBranchTaken := taken }
  let pc := if taken then pc + (4 + ir.imm2) else pc + 8
  match ← sysChainOr (if taken then lk.taken else lk.untaken) pc with
  | .chain r pc => return .enter r cycle pc
  | _ => saveAndReturn true cycle pc

def sysImpl (ir : Insn) (lk : Links) (noNext : Bool) (cycle : BitVec 64) (pc : Word) :
    SysM SysCtl := do
  match ir.opcode with
  | .fuse1 | .fuse2 | .fuse5 | .fuse7 | .fuse8 =>
    modifyCpu fun s => { s with PC := pc }
    sysFusePure env ir noNext cycle pc
  | .fuse3 | .fuse4 =>
    modifyCpu fun s => { s with PC := pc }
    let cycle := cycle + ir.imm2.signExtend 64
    let stop := sysFuseNextOrStop noNext cycle (pc + ir.imm2 * 4)
    if ir.opcode = .fuse3 then
      sysFuseMem env raise .storeMisaligned (sysFuseSw env raise) cycle pc stop
        (ir.fuse.take ir.imm2.toNat)
    else
      sysFuseMem env raise .loadMisaligned (sysFuseLw env raise) cycle pc stop
        (ir.fuse.take ir.imm2.toNat)
  | .fuse6 =>
    modifyCpu fun s => { s.setX regA7 ir.imm with compressed := false }.save (cycle + 2) (pc + 4)
    ecallHandler env raise
    return .ret true
  | .fuse9 =>
    modifyCpu fun s => { s with PC := pc }.setX ir.rd ir.imm
    let addr := ir.imm + ir.imm2
    sysCheckAligned env raise .loadMisaligned addr (cycle + 2) pc do
      let v ← mmuRead env raise 4 Cpu.memReadW addr
      modifyCpu fun s => s.setX ir.rs2 v
      sysFuseNextOrStop noNext (cycle + 2) (pc + 8)
  | .fuse10 =>
    modifyCpu fun s => { s with PC := pc }.setX ir.rd ir.imm
    let addr := ir.imm + ir.imm2
    sysCheckAligned env raise .storeMisaligned addr (cycle + 2) pc do
      mmuWrite env raise 4 Cpu.memWriteW addr ((← get).cpu.X ir.rs1)
      sysFuseNextOrStop noNext (cycle + 2) (pc + 8)
  | .fuse11 =>
    modifyCpu fun s => { s with PC := pc }
    let addr := (← get).cpu.X ir.rs1 + ir.imm
    sysCheckAligned env raise .loadMisaligned addr (cycle + 2) pc do
      let v ← mmuRead env raise 4 Cpu.memReadW addr
      modifyCpu fun s => s.setX ir.rd v
      if !(← get).isTrapped then modifyCpu fun s => s.setX ir.rs1 (s.X ir.rs1 + ir.imm2)
      sysFuseNextOrStop noNext (cycle + 2) (pc + 8)
  | .fuse12 =>
    modifyCpu fun s => { s with PC := pc }
    sysFuse12 ir lk cycle pc
  | _ => sysRvop env raise ir lk noNext cycle pc

end Exec

/-! ## Traps -/

/-- `m/scause`, `m/stval` and `is_trapped` of `SET_CAUSE_AND_TVAL_THEN_TRAP`. -/
def sysSetCause (cause : SysCause) (tval : Word) (s : Sys) : Sys :=
  let csr :=
    if s.cpu.isUOrSMode then { s.cpu.csr with scause := cause.code, stval := tval }
    else { s.cpu.csr with mcause := cause.code, mtval := tval }
  { s with isTrapped := s.isTrapped || cause ≠ .ecallU, cpu := { s.cpu with csr } }

/-- The end of `_trap_handler`: the vector, and the nested interpreter `loop`. -/
def vectorThen (loop : SysM Unit) (tvec cause : Word) : SysM Unit := do
  modifyCpu (vectorTo (tvec &&& ~~~0x3) (tvec &&& 0x3) cause)
  if (← get).isTrapped then loop

/-- `_trap_handler`. Without a trap vector the trap is dropped. -/
def trapHandlerWith (loop : SysM Unit) : SysM Unit := do
  let s ← get
  if s.cpu.isUOrSMode then
    modify fun s => { s with cpu := enterSupervisor s.cpu, lastCsrSepc := s.cpu.PC }
    if s.cpu.csr.stvec = 0 then modify fun s => { s with isTrapped := false }
    else vectorThen loop s.cpu.csr.stvec s.cpu.csr.scause
  else
    modifyCpu enterMachine
    if s.cpu.csr.mtvec = 0 then modify fun s => { s with isTrapped := false }
    else vectorThen loop s.cpu.csr.mtvec s.cpu.csr.mcause

/-- `SET_CAUSE_AND_TVAL_THEN_TRAP` with the nested interpreter `loop`. -/
def raiseWith (loop : SysM Unit) (cause : SysCause) (tval : Word) : SysM Unit := do
  modify (sysSetCause cause tval)
  trapHandlerWith loop

/-- The fetch of `__trap_handler`, which is retried after `need_retranslate`. -/
def fetchRetry (env : SysEnv) (raise : Raise) : Nat → SysM Word
  | 0 => failure
  | n + 1 => do
    let insn ← mmuIfetch env raise (← get).cpu.PC
    if insn = 0 ∧ (← get).needRetranslate then
      modify fun s => { s with needRetranslate := false }
      fetchRetry env raise n
    else return insn

/-- What `rv_decode` leaves in the node it was given, whatever it returns. -/
def decodeOver (extC : Bool) (ir : Insn) (insn : Word) : SysM Insn :=
  match rvDecodeInto true extC ir insn with
  | .ok ir | .illegal ir => return ir
  | .abort => failure

/-- The loop of `__trap_handler` on the node `ir`, which is decoded into again and again, at most
`fuel` times. A handler that returns leaves the loop to its condition. -/
def trapLoop (env : SysEnv) : Nat → Insn → SysM Unit
  | 0, _ => failure
  | fuel + 1, ir => do
    let s ← get
    if s.isTrapped && !s.cpu.halt then
      let raise := raiseWith (trapLoop env fuel {})
      let insn ← fetchRetry env raise fuel
      if insn = 0 then modify fun s => { s with prevNull := true }
      else
        let ir ← decodeOver env.extC ir insn
        modify fun s => { s with
          relocEnableMmuJalrAddr := s.cpu.PC,
          cpu := { s.cpu with compressed := isCompressed insn } }
        let s := (← get).cpu
        match ← sysImpl env raise ir {} true s.csr.cycle s.PC with
        | .ret _ | .signal => trapLoop env fuel ir
        -- a node without successor and links neither goes on nor chains, and has no history table
        | .next .. | .enter .. | .lookup .. => failure
    else modify fun s => { s with prevNull := true }

/-- `SET_CAUSE_AND_TVAL_THEN_TRAP`. -/
def sysRaise (env : SysEnv) (fuel : Nat) : Raise := raiseWith (trapLoop env fuel {})

def sysTrapHandler (env : SysEnv) (fuel : Nat) : SysM Unit := trapHandlerWith (trapLoop env fuel {})

end Rv32emu
