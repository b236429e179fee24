import Rv32emu.DecodeSpec
import Rv32emu.StaleNode
import Rv32emu.StateRel

/-!
# The nested trap loop against the debug stepper

`__trap_handler` interprets the guest's trap handler one instruction at a time, like `rv_step_debug`,
but it decodes into one node that it never clears and does not look at the verdict of the decoder.

* `trapIteration` : one turn of its loop (`trapLoop_succ`); `sysStepDebug` : `rv_step_debug`;
* `Sys.tweak` : the turn also stores `rv->compressed` and `reloc_enable_mmu_jalr_addr`. A `SYSTEM` build
  never reads the first and reads the second only in `jalr`; `SysEnv.IgnoresLength` says that the host
  does not read the first either;
* `trapIteration_agrees_iff` : the two do the same with a word, whatever the node holds, exactly if the
  decoder does not reject it.
-/

namespace Rv32emu

open StateRel

/-! ## The two steppers -/

section Steppers

variable (env : SysEnv) (raise : Raise)

/-- An indirect jump outside a trap has a node without a branch history table; in the debug mode of
`GDBSTUB` the table is not consulted. -/
def withoutHistory (debugMode : Bool) (ir : Insn) (cycle : BitVec 64) (pc : Word) : SysM Unit := do
  if debugMode then
    if ir.opcode = .jalr then modify relocateEnableMmu
    modifyCpu fun s => s.save cycle pc
  else failure

/-- The handler of a node without successor, links and history table. -/
def runAlone (debugMode : Bool) (ir : Insn) : SysM Unit := do
  let s := (← get).cpu
  match ← sysImpl env raise ir {} true s.csr.cycle s.PC with
  | .ret _ | .signal => return ()
  | .lookup cycle pc => withoutHistory debugMode ir cycle pc
  | .next .. | .enter .. => failure

/-- The part of a turn of `__trap_handler` behind the fetch; the result is the node. -/
def trapExec (debugMode : Bool) (ir : Insn) (insn : Word) : SysM Insn := do
  let ir ← decodeOver env.extC ir insn
  modify fun s => { s with
    relocEnableMmuJalrAddr := s.cpu.PC,
    cpu := { s.cpu with compressed := isCompressed insn } }
  runAlone env raise debugMode ir
  return ir

/-- One turn of the loop of `__trap_handler` on the node `ir`; `none` leaves the loop. -/
def trapIteration (debugMode : Bool) (fuel : Nat) (ir : Insn) : SysM (Option Insn) := do
  let insn ← fetchRetry env raise fuel
  if insn = 0 then return none
  else return some (← trapExec env raise debugMode ir insn)

/-- The part of `rv_step_debug` behind the fetch. -/
def debugExec (debugMode : Bool) (insn : Word) : SysM Unit := do
  match rvDecodeInto true env.extC {} insn with
  | .abort => failure
  | .illegal _ =>
    modifyCpu fun s => { s with compressed := isCompressed insn }
    raise .illegalInsn insn
  | .ok ir => runAlone env raise debugMode { ir with pc := (← get).cpu.PC }

/-- `rv_step_debug` without its interrupt check; `trap` is `trap_handler`. -/
def sysStepDebug (trap : SysM Unit) (debugMode : Bool) (fuel : Nat) : SysM Unit := do
  let insn ← fetchRetry env raise fuel
  if insn = 0 then
    if (← get).isTrapped then trap else failure
  else debugExec env raise debugMode insn

end Steppers

/-- The loop goes on while a trap is being handled, with the node of the last turn. -/
def trapLoopWith (turn : SysM (Option Insn)) (loop : Insn → SysM Unit) : SysM Unit := do
  let s ← get
  if s.isTrapped && !s.cpu.halt then
    match ← turn with
    | none => modify fun s => { s with prevNull := true }
    | some ir => loop ir
  else modify fun s => { s with prevNull := true }

/-- `trapLoop` is made of such turns. -/
theorem trapLoop_succ (env : SysEnv) (fuel : Nat) (ir : Insn) :
    trapLoop env (fuel + 1) ir =
      trapLoopWith (trapIteration env (sysRaise env fuel) false fuel ir) (trapLoop env fuel) := by
  conv_lhs => unfold trapLoop
  unfold trapLoopWith
  refine congrArg _ (funext fun s => ?_)
  split
  · unfold trapIteration
    rw [bind_assoc]
    show (fetchRetry env (sysRaise env fuel) fuel >>= _) = _
    refine congrArg _ (funext fun insn => ?_)
    split
    · rfl
    · simp only [trapExec, runAlone, bind_assoc, pure_bind]
      refine congrArg _ (funext fun ir => congrArg _ (funext fun _ => congrArg _ (funext fun s => ?_)))
      refine congrArg _ (funext fun ctl => ?_)
      cases ctl <;> rfl
  · rfl

/-! ## What no handler sees -/

/-- Other values of `rv->compressed` and `reloc_enable_mmu_jalr_addr`. -/
def Sys.tweak (i : Bool × Word) (s : Sys) : Sys :=
  { s with cpu := { s.cpu with compressed := i.1 }, relocEnableMmuJalrAddr := i.2 }

/-- A function on the processor state that passes `rv->compressed` on. -/
def KeepsLength (f : Cpu → Cpu) : Prop :=
  ∀ (s : Cpu) (c : Bool), f { s with compressed := c } = { f s with compressed := c }

/-- A part of the host that neither reads nor writes `rv->compressed`. -/
structure SysEnv.IgnoresLength (env : SysEnv) : Prop where
  syscall : ∀ n, KeepsLength (env.syscallHandler n)
  mmioWrite : ∀ dev n addr v, KeepsLength (env.mmioWrite dev n addr v)
  mmioRead : ∀ dev n addr, KeepsLength fun s => (env.mmioRead dev n addr s).2
  mmioValue : ∀ dev n addr s c,
    (env.mmioRead dev n addr { s with compressed := c }).1 = (env.mmioRead dev n addr s).1

theorem modifyCpu_blind {f : Cpu → Cpu} (h : KeepsLength f) : Blind Sys.tweak (modifyCpu f) :=
  .modify fun i s => ⟨i, by
    simp only [Sys.tweak]
    rw [h]⟩

theorem modify_blind {f : Sys → Sys} (h : ∀ i s, f (s.tweak i) = (f s).tweak i) :
    Blind Sys.tweak (modify f : SysM PUnit) :=
  .modify fun i s => ⟨i, h i s⟩

theorem vectorTo_keepsLength (base mode cause : Word) : KeepsLength (vectorTo base mode cause) := by
  intro s c
  unfold vectorTo
  split_ifs <;> rfl

theorem trapHandlerWith_blind {loop : SysM Unit} (hloop : Blind Sys.tweak loop) :
    Blind Sys.tweak (trapHandlerWith loop) := by
  have hvec : ∀ tvec cause, Blind Sys.tweak (vectorThen loop tvec cause) := fun tvec cause =>
    .bind (modifyCpu_blind (vectorTo_keepsLength _ _ _)) fun _ =>
      .get_bind (fun _ _ => rfl) fun _ => .ite hloop (.pure _)
  refine .get_bind (fun _ _ => rfl) fun s => .ite ?_ ?_
  · exact .bind (modify_blind fun _ _ => rfl) fun _ => .ite (modify_blind fun _ _ => rfl) (hvec _ _)
  · exact .bind (modifyCpu_blind fun _ _ => rfl) fun _ => .ite (modify_blind fun _ _ => rfl) (hvec _ _)

theorem sysSetCause_tweak (cause : SysCause) (tval : Word) (i : Bool × Word) (s : Sys) :
    sysSetCause cause tval (s.tweak i) = (sysSetCause cause tval s).tweak i := by
  unfold sysSetCause
  rfl

theorem raiseWith_blind {loop : SysM Unit} (hloop : Blind Sys.tweak loop) (cause : SysCause)
    (tval : Word) : Blind Sys.tweak (raiseWith loop cause tval) :=
  .bind (modify_blind (sysSetCause_tweak cause tval)) fun _ => trapHandlerWith_blind hloop

section Mmu

variable {env : SysEnv} {raise : Raise} (hraise : ∀ cause tval, Blind Sys.tweak (raise cause tval))

theorem setPteBits_blind (pteAddr bits : Word) : Blind Sys.tweak (setPteBits pteAddr bits) :=
  modifyCpu_blind fun _ _ => rfl

theorem checkPendingSignal_blind : Blind Sys.tweak (checkPendingSignal env) :=
  .ite (.pure _) (.bind (modify_blind fun _ _ => rfl) fun _ => .get_bind (fun _ _ => rfl) fun _ => .pure _)

include hraise

theorem mmuFaultCheck_blind (access : Access) (walk : Option (Word × Nat)) (vaddr : Word) :
    Blind Sys.tweak (mmuFaultCheck raise access walk vaddr) := by
  refine .get_bind (fun _ _ => rfl) fun s => ?_
  rcases walk with _ | ⟨pteAddr, level⟩
  · exact .bind (hraise _ _) fun _ => .pure _
  · exact .ite (.bind (hraise _ _) fun _ => .pure _) (.pure _)

theorem ifetchWalk_blind (vaddr : Word) : Blind Sys.tweak (ifetchWalk env raise vaddr) := by
  refine .get_bind (fun _ _ => rfl) fun s =>
    .bind (mmuFaultCheck_blind hraise _ _ _) fun ok => .ite (.pure _) ?_
  refine .bind checkPendingSignal_blind fun gaveUp => .ite (.pure _) ?_
  refine .get_bind (fun _ _ => rfl) fun s =>
    .bind (.ite (.pure _) (mmuFaultCheck_blind hraise .fetch _ _)) fun ok => ?_
  exact .ite (.pure _) (.bind (modify_blind fun _ _ => rfl) fun _ => .pure _)

theorem mmuIfetch_blind (vaddr : Word) : Blind Sys.tweak (mmuIfetch env raise vaddr) := by
  refine .get_bind (fun _ _ => rfl) fun s => .ite (.pure _) (.ite (.pure _) ?_)
  refine .bind (.get_bind (fun _ _ => rfl) fun _ => .pure _) fun hit => ?_
  rcases hit with _ | paddr
  · refine .bind (ifetchWalk_blind hraise vaddr) fun walk => ?_
    rcases walk with _ | ⟨pteAddr, level⟩
    · exact .pure _
    · refine .bind (setPteBits_blind _ _) fun _ => .get_bind (fun _ _ => rfl) fun _ => ?_
      exact .bind (modify_blind fun _ _ => rfl) fun _ => .get_bind (fun _ _ => rfl) fun _ => .pure _
  · exact .get_bind (fun _ _ => rfl) fun _ => .pure _

theorem fetchRetry_blind (n : Nat) : Blind Sys.tweak (fetchRetry env raise n) := by
  induction n with
  | zero => exact .failure
  | succ n ih =>
    refine .get_bind (fun _ _ => rfl) fun s => .bind (mmuIfetch_blind hraise _) fun insn => ?_
    refine .get_bind (fun _ _ => rfl) fun s => .ite ?_ (.pure _)
    exact .bind (modify_blind fun _ _ => rfl) fun _ => ih

end Mmu

/-- In a nested loop the two fields are written before anything can depend on them. -/
theorem trapExec_blind (env : SysEnv) (raise : Raise) (debugMode : Bool) (ir : Insn) (insn : Word) :
    Blind Sys.tweak (trapExec env raise debugMode ir insn) := by
  intro i s
  have hrun : trapExec env raise debugMode ir insn (s.tweak i) =
      trapExec env raise debugMode ir insn s := by
    unfold trapExec decodeOver
    cases rvDecodeInto true env.extC ir insn <;> rfl
  rw [hrun]
  cases trapExec env raise debugMode ir insn s with
  | none => exact ⟨i, rfl⟩
  | some r => exact ⟨(r.2.cpu.compressed, r.2.relocEnableMmuJalrAddr), rfl⟩

theorem trapLoop_blind (env : SysEnv) (fuel : Nat) (ir : Insn) : Blind Sys.tweak (trapLoop env fuel ir) := by
  induction fuel generalizing ir with
  | zero => exact .failure
  | succ fuel ih =>
    rw [trapLoop_succ]
    refine .get_bind (fun _ _ => rfl) fun s => .ite (.bind (.bind ?_ fun insn => ?_) fun next => ?_)
      (modify_blind fun _ _ => rfl)
    · exact fetchRetry_blind (raiseWith_blind (ih {})) fuel
    · exact .ite (.pure _) (.bind (trapExec_blind env _ false ir insn) fun _ => .pure _)
    · cases next with
      | none => exact modify_blind fun _ _ => rfl
      | some ir => exact ih ir

theorem sysRaise_blind (env : SysEnv) (fuel : Nat) (cause : SysCause) (tval : Word) :
    Blind Sys.tweak (sysRaise env fuel cause tval) :=
  raiseWith_blind (trapLoop_blind env fuel {}) cause tval

/-! ## Memory accesses -/

section Access

variable {env : SysEnv} (henv : env.IgnoresLength) {raise : Raise}
  (hraise : ∀ cause tval, Blind Sys.tweak (raise cause tval))

include hraise

theorem translateWalk_blind (vaddr : Word) (access : Access) :
    Blind Sys.tweak (translateWalk env raise vaddr access) := by
  refine .get_bind (fun _ _ => rfl) fun s =>
    .bind (mmuFaultCheck_blind hraise _ _ _) fun ok => .ite (.pure _) ?_
  refine .bind checkPendingSignal_blind fun gaveUp => .ite (.pure _) ?_
  refine .get_bind (fun _ _ => rfl) fun s => .bind (mmuFaultCheck_blind hraise _ _ _) fun ok => ?_
  exact .ite (.pure _) (.bind (modify_blind fun _ _ => rfl) fun _ => .pure _)

omit hraise in
theorem dtlbLookup_blind (vaddr : Word) (access : Access) :
    Blind Sys.tweak (dtlbLookup vaddr access) := by
  refine .get_bind (fun _ _ => rfl) fun s => ?_
  cases s.dtlb.lookup vaddr access with
  | none => exact .pure _
  | some entry =>
    exact .ite (.bind (setPteBits_blind _ _) fun _ =>
      .bind (modify_blind fun _ _ => rfl) fun _ => .pure _) (.pure _)

theorem mmuTranslate_blind (vaddr : Word) (access : Access) :
    Blind Sys.tweak (mmuTranslate env raise vaddr access) := by
  refine .get_bind (fun _ _ => rfl) fun s => .ite (.pure _) ?_
  refine .bind (dtlbLookup_blind vaddr access) fun hit => ?_
  cases hit with
  | some paddr => exact .pure _
  | none =>
    refine .bind (translateWalk_blind hraise vaddr access) fun walk => ?_
    rcases walk with _ | ⟨pteAddr, level⟩
    · exact .pure _
    · refine .bind (setPteBits_blind _ _) fun _ => .get_bind (fun _ _ => rfl) fun _ => ?_
      exact .bind (modify_blind fun _ _ => rfl) fun _ => .pure _

omit hraise in
theorem callHost_keepsLength {f : Nat → Cpu → Cpu} (h : ∀ n, KeepsLength (f n)) :
    KeepsLength (Cpu.callHost f) := by
  intro s c
  simp only [Cpu.callHost]
  rw [h s.host s c]

include henv

/-- `read` looks at the memory only. -/
theorem mmuRead_blind {read : Cpu → Word → Word}
    (hread : ∀ s c a, read { s with compressed := c } a = read s a) (size : Nat) (vaddr : Word) :
    Blind Sys.tweak (mmuRead env raise size read vaddr) := by
  refine .bind (mmuTranslate_blind hraise vaddr .read) fun addr => .get_bind (fun i s => ?_) fun s => ?_
  · have hvalue (v : Word) : readValue read { s.cpu with compressed := i.1 } addr v =
        readValue read s.cpu addr v := hread { s.cpu with mem := _ } i.1 addr
    have hgiven : (s.tweak i).givenUp env = s.givenUp env := rfl
    have hcpu : (s.tweak i).cpu = { s.cpu with compressed := i.1 } := rfl
    simp only [hgiven, hcpu, hvalue, hread, henv.mmioValue]
  · refine .ite (.pure _) (.ite (.pure _) (.ite .failure ?_))
    cases env.mmioDevice addr with
    | none => exact .failure
    | some dev =>
      exact .bind (modifyCpu_blind (callHost_keepsLength fun n => henv.mmioRead dev n addr)) fun _ => .pure _

theorem mmuWrite_blind {write : Cpu → Word → Word → Cpu} (hwrite : ∀ a v, KeepsLength (write · a v))
    (size : Nat) (vaddr value : Word) : Blind Sys.tweak (mmuWrite env raise size write vaddr value) := by
  refine .bind (mmuTranslate_blind hraise vaddr .write) fun addr => .get_bind (fun _ _ => rfl) fun s => ?_
  refine .ite (.pure _) (.ite (modifyCpu_blind (hwrite _ _)) (.ite .failure ?_))
  cases env.mmioDevice addr with
  | none => exact .failure
  | some dev => exact modifyCpu_blind (callHost_keepsLength fun n => henv.mmioWrite dev n addr _)

end Access

/-! ## Handlers -/

section Handlers

variable {env : SysEnv} (henv : env.IgnoresLength) {raise : Raise}
  (hraise : ∀ cause tval, Blind Sys.tweak (raise cause tval))

/-- What a row passes to the memory and to the CSRs does not depend on `rv->compressed`. -/
def Code.Blind : Code → Prop
  | .load _ _ _ read => ∀ s c a, read { s with compressed := c } a = read s a
  | .store _ _ _ write => ∀ a v, KeepsLength (write · a v)
  | .csr f => ∀ env ir x cycle s c,
      f env ir x cycle { s with compressed := c } =
        ((f env ir x cycle s).1, { (f env ir x cycle s).2 with compressed := c })
  | _ => True

theorem csrUpdate_length (env : Env) (f : Word → Word) (csr : Word) (cycle : BitVec 64) (s : Cpu)
    (c : Bool) :
    csrUpdate env f csr cycle { s with compressed := c } =
      ((csrUpdate env f csr cycle s).1, { (csrUpdate env f csr cycle s).2 with compressed := c }) := by
  have hsync : csrSyncCycle { s with compressed := c } csr cycle =
      { csrSyncCycle s csr cycle with compressed := c } := by
    unfold csrSyncCycle
    split <;> rfl
  unfold csrUpdate
  rw [hsync]
  cases csrGetPtr csr with
  | none => rfl
  | some p => cases p <;> rfl

theorem rvop_blind (op : Opcode) : (rvop op).Blind := by
  cases op
  case csrrw | csrrs | csrrc | csrrwi | csrrsi | csrrci =>
    exact fun _ _ _ _ _ _ => csrUpdate_length ..
  all_goals first
    | trivial
    | exact fun _ _ _ => rfl
    | exact fun _ _ _ _ => rfl

/-- `rv->PC`, the cycle count and the length are saved. -/
theorem saveLength_blind (compress : Bool) (cycle : BitVec 64) (pc : Word) :
    Blind Sys.tweak (modifyCpu fun s => { s with compressed := compress }.save cycle pc) :=
  .modify fun i _ => ⟨(compress, i.2), rfl⟩

theorem setBranchTaken_blind (taken : Bool) : Blind Sys.tweak (setBranchTaken taken) := by
  refine modify_blind fun i s => ?_
  have ht : (s.tweak i).isTrapped = s.isTrapped := rfl
  rw [ht]
  split <;> rfl

theorem sysChainOr_blind (link : Option Ref) (pc : Word) : Blind Sys.tweak (sysChainOr link pc) := by
  refine .get_bind (fun _ _ => rfl) fun s => ?_
  cases link with
  | none => exact .pure _
  | some r =>
    cases s.isTrapped with
    | true => exact .pure _
    | false => exact .bind (modifyCpu_blind fun _ _ => rfl) fun _ => .pure _

theorem sysLookup_blind (pc : Word) : Blind Sys.tweak (sysLookup pc) :=
  .get_bind (fun _ _ => rfl) fun _ => .ite (.pure _) (.pure _)

theorem setXNz_keepsLength (rd : Reg) (v : Word) : KeepsLength (Cpu.setXNz · rd v) := by
  intro s c
  unfold Cpu.setXNz
  split <;> rfl

theorem csrSideEffects_tweak (ir : Insn) (old : Word) (i : Bool × Word) (s : Sys) :
    csrSideEffects ir old (s.tweak i) = (csrSideEffects ir old s).tweak i := by
  have hsatp : (s.tweak i).cpu.csr.satp = s.cpu.csr.satp := rfl
  unfold csrSideEffects
  rw [hsatp]
  split_ifs <;> rfl

/-- The machine after a CSR access that has read `r.1`. -/
def Sys.afterCsr (ir : Insn) (satp : Word) (r : Word × Cpu) (s : Sys) : Sys :=
  let s := csrSideEffects ir satp { s with cpu := r.2 }
  { s with cpu := s.cpu.setXNz ir.rd r.1 }

theorem Sys.afterCsr_tweak (ir : Insn) (satp v : Word) (c : Cpu) (i : Bool × Word) (s : Sys) :
    (s.tweak i).afterCsr ir satp (v, { c with compressed := i.1 }) =
      (s.afterCsr ir satp (v, c)).tweak i := by
  have hside := csrSideEffects_tweak ir satp i { s with cpu := c }
  unfold Sys.afterCsr
  change (let s' := csrSideEffects ir satp (Sys.tweak i { s with cpu := c });
    { s' with cpu := s'.cpu.setXNz ir.rd v }) = _
  rw [hside]
  generalize csrSideEffects ir satp { s with cpu := c } = s'
  have hx := setXNz_keepsLength ir.rd v s'.cpu i.1
  exact congrArg (fun c : Cpu => { s' with cpu := c, relocEnableMmuJalrAddr := i.2 }) hx

section Raise

include hraise

theorem sysMisalign_blind (cause : SysCause) (tval : Word) (compress : Bool) (cycle : BitVec 64)
    (pc : Word) : Blind Sys.tweak (sysMisalign raise cause tval compress cycle pc) :=
  .bind (saveLength_blind _ _ _) fun _ => .bind (hraise _ _) fun _ => .pure _

include henv

theorem ecallHandler_blind : Blind Sys.tweak (ecallHandler env raise) := by
  have hadv : Blind Sys.tweak advancePc := modifyCpu_blind fun _ _ => rfl
  have hcall : Blind Sys.tweak (modifyCpu (Cpu.callHost env.syscallHandler)) :=
    modifyCpu_blind (callHost_keepsLength henv.syscall)
  refine .get_bind (fun _ _ => rfl) fun s => .ite (.bind hadv fun _ => hcall) (.ite (.ite ?_ ?_) (.ite ?_ ?_))
  · exact .bind hcall fun _ => hadv
  · exact hraise _ _
  · exact .bind hadv fun _ => hcall
  · exact .pure _

/-- **No body sees the change**; `jalr` looks at the recorded address only after its body. -/
theorem sysExec_blind {code : Code} (hcode : code.Blind) (ir : Insn) (lk : Links) (cycle : BitVec 64)
    (pc : Word) : Blind Sys.tweak (code.sysExec env raise ir lk cycle pc) := by
  have hset {f : Cpu → Cpu} (h : KeepsLength f) :
      Blind Sys.tweak (do modifyCpu f; return SysFlow.done) := .bind (modifyCpu_blind h) fun _ => .pure _
  have hread {read : Cpu → Word → Word} := @mmuRead_blind env henv raise hraise read
  have hmis := sysMisalign_blind hraise
  cases code with
  | set dst val => exact hset (f := fun s => s.setX (dst ir) (val ir s.X pc)) fun _ _ => rfl
  | skip => exact hset (f := fun s => s) fun _ _ => rfl
  | fpu f => exact hset (f := fun s => { s with fpu := f env.fp ir s.X s.fpu }) fun _ _ => rfl
  | fpuX f =>
    refine hset (f := fun s => { s with fpu := (f env.fp ir s.fpu).2 }.setXNz ir.rd (f env.fp ir s.fpu).1) ?_
    exact fun s c => setXNz_keepsLength ir.rd _ { s with fpu := _ } c
  | load compress mask addr read =>
    refine .get_bind (fun _ _ => rfl) fun s => .ite (hmis _ _ _ _ _) ?_
    exact .bind (hread hcode _ _) fun v => hset fun _ _ => rfl
  | store compress mask addr write =>
    refine .get_bind (fun _ _ => rfl) fun s => .ite (hmis _ _ _ _ _) ?_
    exact .bind (mmuWrite_blind henv hraise hcode _ _ _) fun _ => .pure _
  | lrw =>
    refine .get_bind (fun _ _ => rfl) fun s => .ite (hmis _ _ _ _ _) (.ite ?_ (.pure _))
    exact .bind (hread (fun _ _ _ => rfl) _ _) fun v => hset fun _ _ => rfl
  | scw =>
    refine .get_bind (fun _ _ => rfl) fun s => .ite (hmis _ _ _ _ _) ?_
    exact .bind (mmuWrite_blind henv hraise (fun _ _ _ _ => rfl) _ _ _) fun _ => hset fun _ _ => rfl
  | amo f =>
    refine .get_bind (fun _ _ => rfl) fun s => .ite (hmis _ _ _ _ _) ?_
    refine .bind (hread (fun _ _ _ => rfl) _ _) fun v => .get_bind (fun _ _ => rfl) fun _ => ?_
    refine .bind (modifyCpu_blind (setXNz_keepsLength _ _)) fun _ => ?_
    exact .bind (mmuWrite_blind henv hraise (fun _ _ _ _ => rfl) _ _ _) fun _ => .pure _
  | flw addr =>
    refine .get_bind (fun _ _ => rfl) fun s => .ite (hmis _ _ _ _ _) ?_
    exact .bind (hread (fun _ _ _ => rfl) _ _) fun v => hset fun _ _ => rfl
  | fsw addr =>
    refine .get_bind (fun _ _ => rfl) fun s => .ite (hmis _ _ _ _ _) ?_
    exact .bind (mmuWrite_blind henv hraise (fun _ _ _ _ => rfl) _ _ _) fun _ => .pure _
  | csr f =>
    have hrun : (Code.csr f).sysExec env raise ir lk cycle pc = (do
        modify fun s => s.afterCsr ir s.cpu.csr.satp
          (f { env.toEnv with gettimeofday := fun _ => cycle + s.timerOffset } ir s.cpu.X cycle s.cpu)
        return .done) := rfl
    rw [hrun]
    refine .bind (modify_blind fun i s => ?_) fun _ => .pure _
    have hf := hcode { env.toEnv with gettimeofday := fun _ => cycle + s.timerOffset } ir s.cpu.X cycle s.cpu i.1
    rw [← Sys.afterCsr_tweak]
    exact congrArg (fun r => (s.tweak i).afterCsr ir s.cpu.csr.satp r) hf
  | branch untaken =>
    refine .get_bind (fun _ _ => rfl) fun s => .ite ?_ ?_
    · exact .bind (setBranchTaken_blind _) fun _ => .ite (sysChainOr_blind _ _) (.pure _)
    · exact .bind (setBranchTaken_blind _) fun _ => .ite (hmis _ _ _ _ _) (sysChainOr_blind _ _)
  | cbranch untaken =>
    refine .get_bind (fun _ _ => rfl) fun s => .ite ?_ ?_
    · exact .bind (modifyCpu_blind fun _ _ => rfl) fun _ => .ite (sysChainOr_blind _ _) (.pure _)
    · exact .bind (modifyCpu_blind fun _ _ => rfl) fun _ => sysChainOr_blind _ _
  | jal =>
    refine .get_bind (fun _ _ => rfl) fun s => .bind (modifyCpu_blind (setXNz_keepsLength _ _)) fun _ => ?_
    exact .ite (hmis _ _ _ _ _) (sysChainOr_blind _ _)
  | jalr =>
    refine .get_bind (fun _ _ => rfl) fun s => .bind (modifyCpu_blind (setXNz_keepsLength _ _)) fun _ => ?_
    exact .ite (hmis _ _ _ _ _) (sysLookup_blind _)
  | cjal =>
    refine .get_bind (fun _ _ => rfl) fun s => .bind (modifyCpu_blind fun _ _ => rfl) fun _ => ?_
    exact sysChainOr_blind _ _
  | cj => exact .get_bind (fun _ _ => rfl) fun s => sysChainOr_blind _ _
  | cjr => exact .get_bind (fun _ _ => rfl) fun s => sysLookup_blind _
  | cjalr =>
    refine .get_bind (fun _ _ => rfl) fun s => .bind (modifyCpu_blind fun _ _ => rfl) fun _ => ?_
    exact sysLookup_blind _
  | leave =>
    refine .get_bind (fun _ _ => rfl) fun s => .ite (.bind (modify_blind fun i s => ?_) fun _ => .pure _) (.pure _)
    split_ifs <;> rfl
  | fencei =>
    exact .get_bind (fun _ _ => rfl) fun s => .bind (modifyCpu_blind fun _ _ => rfl) fun _ => .pure _
  | ecall =>
    refine .get_bind (fun _ _ => rfl) fun s => .bind (saveLength_blind _ _ _) fun _ => ?_
    exact .bind (ecallHandler_blind henv hraise) fun _ => .pure _
  | ebreak compress =>
    refine .get_bind (fun _ _ => rfl) fun s => .bind (saveLength_blind _ _ _) fun _ => ?_
    exact .bind (hraise _ _) fun _ => .pure _
  | mret => exact .get_bind (fun _ _ => rfl) fun s => .bind (modifyCpu_blind fun _ _ => rfl) fun _ => .pure _
  | fail =>
    refine .get_bind (fun _ _ => rfl) fun s => .ite ?_ (.pure _)
    exact .bind (modify_blind fun _ _ => rfl) fun _ => .pure _

end Raise

theorem saveAndReturn_blind (ok : Bool) (cycle : BitVec 64) (pc : Word) :
    Blind Sys.tweak (saveAndReturn ok cycle pc) :=
  .bind (modifyCpu_blind fun _ _ => rfl) fun _ => .pure _

theorem sysEndOp_blind (ir : Insn) (lk : Links) (cycle : BitVec 64) (pc : Word) :
    Blind Sys.tweak (sysEndOp ir lk cycle pc) := by
  refine .get_bind (fun _ _ => rfl) fun s => ?_
  split
  · exact .bind (modifyCpu_blind fun _ _ => rfl) fun _ => .pure _
  · exact saveAndReturn_blind _ _ _

theorem sysNextop_blind (ir : Insn) (lk : Links) (noNext : Bool) (cycle : BitVec 64) (pc : Word) :
    Blind Sys.tweak (sysNextop ir lk noNext cycle pc) := by
  refine .get_bind (fun _ _ => rfl) fun s => .ite ?_ ?_
  · exact .bind (modify_blind fun _ _ => rfl) fun _ => saveAndReturn_blind _ _ _
  · exact .get_bind (fun _ _ => rfl) fun s => .ite (sysEndOp_blind _ _ _ _) (.pure _)

theorem signalOr_blind {k : SysM SysCtl} (hk : Blind Sys.tweak k) : Blind Sys.tweak (signalOr k) :=
  .get_bind (fun _ _ => rfl) fun _ => .ite (.bind (modify_blind fun _ _ => rfl) fun _ => .pure _) hk

/-! ## A handler on its own -/

/-- The processor without `rv->compressed`: registers, CSRs, memory and `PC`, and all else. -/
def Sys.seen (s : Sys) : Cpu := { s.cpu with compressed := false }

theorem relocateEnableMmu_cpu (s : Sys) : (relocateEnableMmu s).cpu = s.cpu := by
  unfold relocateEnableMmu
  split <;> rfl

/-- What `jalr` does with the recorded address does not reach the processor. -/
theorem relocate_save_hidden {α : Type} (a : α) (cycle : BitVec 64) (pc : Word) :
    Hidden Sys.tweak Sys.seen (do
      modify relocateEnableMmu
      modifyCpu fun s => s.save cycle pc
      return a) := by
  intro i s
  refine congrArg some ?_
  change ({ (relocateEnableMmu (s.tweak i)).cpu.save cycle pc with compressed := false } : Cpu) =
    { (relocateEnableMmu s).cpu.save cycle pc with compressed := false }
  rw [relocateEnableMmu_cpu, relocateEnableMmu_cpu]
  rfl

variable (env raise) in
theorem sysImpl_of_not_fuse {ir : Insn} (h : ir.opcode.isFuse = false) :
    sysImpl env raise ir = sysRvop env raise ir := by
  funext lk noNext cycle pc
  obtain ⟨imm, rd, rs1, rs2, opcode, shamt, rm, imm2, fuse, ipc⟩ := ir
  cases opcode <;> first | rfl | cases h

theorem sysEndOp_noLinks (ir : Insn) (cycle : BitVec 64) (pc : Word) :
    sysEndOp ir {} cycle pc = saveAndReturn true cycle pc := by
  unfold sysEndOp
  cases ir.opcode.canBranch <;> rfl

theorem withoutHistory_hidden (debugMode : Bool) (ir : Insn) (cycle : BitVec 64) (pc : Word) :
    Hidden Sys.tweak Sys.seen (withoutHistory debugMode ir cycle pc) := by
  have hview (i : Bool × Word) (s : Sys) : (s.tweak i).seen = s.seen := rfl
  unfold withoutHistory
  cases debugMode with
  | false => exact .of_blind hview .failure
  | true =>
    by_cases hop : ir.opcode = .jalr
    · simpa [hop] using relocate_save_hidden () cycle pc
    · simp only [hop, if_true, if_false]
      exact .of_blind hview (modifyCpu_blind fun _ _ => rfl)

include henv hraise in
/-- **The two fields make no difference to the processor.** -/
theorem runAlone_hidden (debugMode : Bool) {ir : Insn} (hfuse : ir.opcode.isFuse = false) :
    Hidden Sys.tweak Sys.seen (runAlone env raise debugMode ir) := by
  have hview (i : Bool × Word) (s : Sys) : (s.tweak i).seen = s.seen := rfl
  unfold runAlone
  refine .get_bind (fun _ _ => rfl) fun s => ?_
  rw [sysImpl_of_not_fuse env raise hfuse]
  unfold sysRvop
  simp only [bind_assoc]
  refine .bind (modifyCpu_blind fun _ _ => rfl) fun _ => ?_
  refine .bind (sysExec_blind henv hraise (rvop_blind ir.opcode) ir {} _ _) fun flow => ?_
  generalize hk : (fun ctl : SysCtl => (match ctl with
    | .ret _ | .signal => pure ()
    | .lookup cycle pc => withoutHistory debugMode ir cycle pc
    | .next .. | .enter .. => failure : SysM Unit)) = k
  have hend (ctl : SysCtl) : Hidden Sys.tweak Sys.seen (k ctl) := by
    subst hk
    cases ctl with
    | ret ok => exact .of_blind hview (.pure _)
    | signal => exact .of_blind hview (.pure _)
    | lookup cycle pc => exact withoutHistory_hidden debugMode ir cycle pc
    | next cycle pc => exact .of_blind hview .failure
    | enter r cycle pc => exact .of_blind hview .failure
  cases flow with
  | done => exact .bind (signalOr_blind (sysNextop_blind _ _ _ _ _)) hend
  | nextop => exact .bind (sysNextop_blind _ _ _ _ _) hend
  | lookup pc => exact hend _
  | chain r pc => exact hend _
  | ret ok => exact hend _
  | endOp pc =>
    by_cases hop : ir.opcode = .jalr
    · subst hk
      simp only [hop, if_true, sysEndOp_noLinks]
      exact relocate_save_hidden () _ pc
    · simp only [hop, if_false]
      exact .bind (sysEndOp_blind _ _ _ _) hend

end Handlers

/-! ## Accepted words -/

theorem rvDecodeInto_not_fuse {system extC : Bool} {insn : Word} {ir : Insn}
    (h : rvDecodeInto system extC {} insn = .ok ir) : ir.opcode.isFuse = false := by
  unfold rvDecodeInto at h
  split at h
  · have hs := rvcJumpTable_spec (insn &&& 0xffff)
    rw [h] at hs
    exact hs.1.not_fuse
  · have hs := rvJumpTable_spec system insn
    rw [h] at hs
    exact hs.1.not_fuse

theorem runAlone_congr (env : SysEnv) (raise : Raise) (debugMode : Bool) {a b : Insn} (h : a.Alike b)
    (hfuse : b.opcode.isFuse = false) :
    runAlone env raise debugMode a = runAlone env raise debugMode b := by
  have hop := h.opcode
  have hrun : sysImpl env raise a = sysImpl env raise b := by
    rw [sysImpl_of_not_fuse env raise hfuse, sysImpl_of_not_fuse env raise (hop ▸ hfuse)]
    funext lk noNext cycle pc
    exact sysRvop_congr env raise hop h.same lk noNext cycle pc
  have hhist : withoutHistory debugMode a = withoutHistory debugMode b := by
    funext cycle pc
    simp only [withoutHistory, hop]
  simp only [runAlone, hrun, hhist]

/-- A word that is not rejected does the same in both steppers. -/
theorem trapExec_seen {env : SysEnv} (henv : env.IgnoresLength) (fuel : Nat) (debugMode : Bool) {insn : Word}
    (hok : ∀ ir, rvDecodeInto true env.extC {} insn ≠ .illegal ir) (ir : Insn) (s : Sys) :
    (trapExec env (sysRaise env fuel) debugMode ir insn s).map (fun r => r.2.seen) =
      (debugExec env (sysRaise env fuel) debugMode insn s).map fun r => r.2.seen := by
  have halike := rvDecodeInto_alike ir {} insn true env.extC
  unfold trapExec debugExec decodeOver
  cases hdec : rvDecodeInto true env.extC {} insn with
  | illegal ir0 => exact absurd hdec (hok ir0)
  | abort =>
    rw [hdec] at halike
    cases hdec' : rvDecodeInto true env.extC ir insn with
    | ok ir1 | illegal ir1 =>
      rw [hdec'] at halike
      exact halike.elim
    | abort => rfl
  | ok ir0 =>
    rw [hdec] at halike
    cases hdec' : rvDecodeInto true env.extC ir insn with
    | illegal ir1 | abort =>
      rw [hdec'] at halike
      exact halike.elim
    | ok ir1 =>
      rw [hdec'] at halike
      have hfuse := rvDecodeInto_not_fuse hdec
      have hsame : runAlone env (sysRaise env fuel) debugMode ir1 =
          runAlone env (sysRaise env fuel) debugMode { ir0 with pc := s.cpu.PC } :=
        runAlone_congr env _ debugMode
          ⟨halike.opcode, halike.imm, halike.rd, halike.rs1, halike.rs2, halike.rs3, halike.shamt, halike.rm⟩
          hfuse
      have hhid : Hidden Sys.tweak Sys.seen
          (runAlone env (sysRaise env fuel) debugMode { ir0 with pc := s.cpu.PC }) :=
        runAlone_hidden henv (sysRaise_blind env fuel) debugMode hfuse
      have hret (m : SysM Unit) (s : Sys) :
          ((m >>= fun _ => pure ir1) s).map (fun r => r.2.seen) = (m s).map fun r => r.2.seen := by
        change ((m s).bind fun r => some (ir1, r.2)).map _ = _
        cases m s <;> rfl
      change ((runAlone env (sysRaise env fuel) debugMode ir1 >>= fun _ => pure ir1)
        (s.tweak (isCompressed insn, s.cpu.PC))).map (fun r => r.2.seen) =
          (runAlone env (sysRaise env fuel) debugMode { ir0 with pc := s.cpu.PC } s).map fun r => r.2.seen
      rw [hret, hsame]
      exact hhid _ s

/-! ## Rejected words -/

/-- The node of a rejected word decoded into a cleared one computes a value or accesses a CSR. -/
def Insn.Harmless (ir : Insn) : Prop :=
  ((∃ dst val, rvop ir.opcode = .set dst val) ∨ ∃ f, rvop ir.opcode = .csr f) ∧ ir.opcode.len = 4

/-- `P` of what is left in the node, if the word is rejected. -/
def Decoded.Illegal (P : Insn → Prop) : Decoded → Prop
  | .illegal ir => P ir
  | _ => True

theorem harmless_nop {ir : Insn} (h : ir.opcode = .nop) : ir.Harmless := by
  unfold Insn.Harmless
  rw [h]
  exact ⟨.inl ⟨_, _, rfl⟩, rfl⟩

theorem Decoded.illegal_select {ir : Insn} (h : ir.opcode = .nop) (o : Option Opcode) :
    (Decoded.select ir o).Illegal Insn.Harmless := by
  cases o with
  | none => exact harmless_nop h
  | some op => trivial

theorem opOpImm_harmless (insn : Word) : (opOpImm {} insn).Illegal Insn.Harmless := by
  unfold opOpImm
  simp only
  by_cases hrd : (decodeItype {} insn).rd = regZero
  · rw [if_pos hrd]
    trivial
  · rw [if_neg hrd]
    split
    · trivial
    · by_cases h1 : decodeFunct3 insn = 1
      · rw [if_pos h1]
        exact ⟨.inl ⟨_, _, rfl⟩, rfl⟩
      · rw [if_neg h1]
        exact ⟨.inl ⟨_, _, rfl⟩, rfl⟩

/-- The immediate of `sfence.vma` is in the range of writable CSRs. -/
theorem sfencevma_writable {insn : Word} (h : insn >>> 25 = 0b0001001) :
    csrIsWritable (decodeItypeImm insn) = true := by
  have hnat : insn.toNat / 2 ^ 25 = 9 := by
    have := congrArg BitVec.toNat h
    simpa [Nat.shiftRight_eq_div_pow] using this
  have hmsb : (insn &&& 0xfff00000).msb = false := by
    rw [BitVec.msb_and]
    have : insn.msb = false := by
      rw [BitVec.msb_eq_false_iff_two_mul_lt]
      omega
    rw [this, Bool.false_and]
  have hle : (insn &&& 0xfff00000).toNat ≤ insn.toNat := by
    rw [BitVec.toNat_and]
    exact Nat.and_le_left
  unfold csrIsWritable decodeItypeImm
  rw [BitVec.sshiftRight_eq_of_msb_false hmsb, BitVec.ult_iff_toNat_lt, BitVec.toNat_ushiftRight,
    Nat.shiftRight_eq_div_pow]
  simp only [BitVec.reduceToNat]
  omega

theorem opSystem_harmless (system : Bool) (insn : Word) : (opSystem system {} insn).Illegal Insn.Harmless := by
  unfold opSystem
  simp only
  split
  · rename_i op hop
    split_ifs with hw
    · trivial
    · have himm : csrIsWritable (decodeItypeImm insn) = false := by
        simp only [Bool.or_eq_true, not_or, Bool.not_eq_true] at hw
        exact hw.1
      change opcodeOfSystem system insn (decodeItypeImm insn) (decodeFunct3 insn) = some op at hop
      generalize hi : decodeItypeImm insn = imm at hop himm
      unfold opcodeOfSystem at hop
      split at hop
      · split_ifs at hop with hs h0 h1 h2 h3 h4
        · rw [← hi, sfencevma_writable hs] at himm
          cases himm
        · rw [h0] at himm
          cases himm
        · rw [h1] at himm
          cases himm
        · rw [h2] at himm
          cases himm
        · rw [h3.2] at himm
          cases himm
        · rw [h4] at himm
          cases himm
      all_goals cases hop
      all_goals exact ⟨.inr ⟨_, rfl⟩, rfl⟩
  · exact harmless_nop rfl

theorem rvJumpTable_harmless (system : Bool) (insn : Word) :
    (rvJumpTable system {} insn).Illegal Insn.Harmless := by
  unfold rvJumpTable
  split
  case h_3 =>
    unfold opMiscMem
    split
    · trivial
    · trivial
    · exact harmless_nop rfl
  case h_4 => exact opOpImm_harmless insn
  case h_5 =>
    unfold opAuipc
    simp only
    split_ifs <;> trivial
  case h_9 =>
    unfold opOp
    simp only
    split_ifs
    · trivial
    · exact Decoded.illegal_select rfl _
  case h_10 =>
    unfold opLui
    simp only
    split_ifs <;> trivial
  case h_19 => exact opSystem_harmless system insn
  all_goals first
    | trivial
    | exact Decoded.illegal_select rfl _
    | exact harmless_nop rfl

theorem rvcJumpTable_harmless (insn : Word) : (rvcJumpTable {} insn).Illegal Insn.Harmless := by
  unfold rvcJumpTable
  split
  case h_1 =>
    unfold opCaddi4spn
    simp only
    split_ifs
    · exact harmless_nop rfl
    · trivial
  case h_2 =>
    unfold opCaddi
    simp only
    split_ifs <;> trivial
  case h_9 =>
    unfold opClui
    simp only
    split_ifs <;> first | trivial | exact harmless_nop rfl
  case h_11 =>
    unfold opCmiscAlu
    simp only
    split
    · split_ifs <;> first | trivial | exact harmless_nop rfl
    · split_ifs <;> first | trivial | exact harmless_nop rfl
    · trivial
    · split <;> trivial
  case h_12 =>
    unfold opCcr
    simp only
    split_ifs <;> first | trivial | exact harmless_nop rfl
  all_goals first
    | trivial
    | exact harmless_nop rfl

theorem rvDecodeInto_harmless {system extC : Bool} {insn : Word} {ir : Insn}
    (h : rvDecodeInto system extC {} insn = .illegal ir) : ir.Harmless := by
  unfold rvDecodeInto at h
  split at h
  · have hs := rvcJumpTable_harmless (insn &&& 0xffff)
    rw [h] at hs
    exact hs
  · have hs := rvJumpTable_harmless system insn
    rw [h] at hs
    exact hs

/-- Machine mode without a trap vector, while a trap is being handled, about to fetch `insn`. -/
def rejecting (insn : Word) : Sys :=
  { cpu := Cpu.zero (Mem.writeW (fun _ => 0) 0 insn), isTrapped := true }

theorem fetchRetry_rejecting (env : SysEnv) (raise : Raise) (n : Nat) {insn : Word} (hnz : insn ≠ 0) :
    fetchRetry env raise (n + 1) (rejecting insn) = some (insn, rejecting insn) := by
  have hword : (rejecting insn).cpu.ifetch 0 = insn := Mem.readW_writeW _ _ _
  have hfetch : mmuIfetch env raise 0 (rejecting insn) = some (insn, rejecting insn) := by
    change some ((rejecting insn).cpu.ifetch 0, rejecting insn) = _
    rw [hword]
  have hstep : fetchRetry env raise (n + 1) (rejecting insn) =
      (mmuIfetch env raise 0 (rejecting insn)).bind fun r =>
        (if r.1 = 0 ∧ r.2.needRetranslate then (do
          modify fun s => { s with needRetranslate := false }
          fetchRetry env raise n) else return r.1 : SysM Word) r.2 := rfl
  rw [hstep, hfetch, Option.bind_some, if_neg fun h => hnz h.1]
  rfl

theorem rvop_of_isFuse {op : Opcode} (h : op.isFuse = true) : rvop op = .fail := by
  cases op <;> first | rfl | cases h

theorem Insn.Harmless.not_fuse {ir : Insn} (h : ir.Harmless) : ir.opcode.isFuse = false := by
  rw [← Bool.not_eq_true]
  intro hfuse
  have hrow := rvop_of_isFuse hfuse
  rcases h.1 with ⟨_, _, h⟩ | ⟨_, h⟩
  · exact Code.noConfusion (hrow.symm.trans h)
  · exact Code.noConfusion (hrow.symm.trans h)

/-- The body of such a node ends behind the handler's code. -/
theorem Insn.Harmless.sysExec {ir : Insn} (h : ir.Harmless) (env : SysEnv) (raise : Raise) (cycle : BitVec 64)
    (pc : Word) (s : Sys) :
    ∃ s', (rvop ir.opcode).sysExec env raise ir {} cycle pc s = some (.done, s') ∧
      s'.needHandleSignal = s.needHandleSignal := by
  rcases h.1 with ⟨dst, val, hrow⟩ | ⟨f, hrow⟩
  · rw [hrow]
    exact ⟨_, rfl, rfl⟩
  · rw [hrow]
    refine ⟨s.afterCsr ir s.cpu.csr.satp
      (f { env.toEnv with gettimeofday := fun _ => cycle + s.timerOffset } ir s.cpu.X cycle s.cpu), rfl, ?_⟩
    unfold Sys.afterCsr csrSideEffects
    split_ifs <;> rfl

/-- The handler of such a node goes on behind the word. -/
theorem Insn.Harmless.runAlone {ir : Insn} (h : ir.Harmless) (env : SysEnv) (raise : Raise) (debugMode : Bool)
    {s : Sys} (hs : s.needHandleSignal = false) :
    ∃ s', runAlone env raise debugMode ir s = some ((), s') ∧ s'.cpu.PC = s.cpu.PC + 4 := by
  obtain ⟨s2, hexec, hs2⟩ := h.sysExec env raise (s.cpu.csr.cycle + 1) s.cpu.PC s
  have hrun : sysImpl env raise ir {} true s.cpu.csr.cycle s.cpu.PC s =
      signalOr (sysNextop ir {} true (s.cpu.csr.cycle + 1) s.cpu.PC) s2 := by
    rw [sysImpl_of_not_fuse env raise h.not_fuse]
    change (((rvop ir.opcode).sysExec env raise ir {} (s.cpu.csr.cycle + 1) s.cpu.PC s).bind _) = _
    rw [hexec]
    rfl
  have hsig : signalOr (sysNextop ir {} true (s.cpu.csr.cycle + 1) s.cpu.PC) s2 =
      sysNextop ir {} true (s.cpu.csr.cycle + 1) s.cpu.PC s2 := by
    change (if s2.needHandleSignal then _ else _ : SysM SysCtl) s2 = _
    rw [hs2, hs]
    rfl
  have hend : ∃ ok s', sysNextop ir {} true (s.cpu.csr.cycle + 1) s.cpu.PC s2 = some (.ret ok, s') ∧
      s'.cpu.PC = s.cpu.PC + ir.opcode.len := by
    unfold sysNextop clearBlockMapIfNeeded
    simp only [Bool.true_or, if_true, sysEndOp_noLinks]
    change ∃ ok s', (if s2.needClearBlockMap then (do
      modify fun s => { s with needClearBlockMap := false, blockMapCleared := true }
      saveAndReturn false _ _) else saveAndReturn true _ _ : SysM SysCtl) s2 = some (.ret ok, s') ∧ _
    split
    · exact ⟨false, _, rfl, rfl⟩
    · exact ⟨true, _, rfl, rfl⟩
  obtain ⟨ok, s', hret, hpc⟩ := hend
  refine ⟨s', ?_, by rw [hpc, h.2]⟩
  change ((sysImpl env raise ir {} true s.cpu.csr.cycle s.cpu.PC s).bind _) = _
  rw [hrun, hsig, hret]
  rfl

/-! ## Rejected words do not agree -/

theorem trapExec_rejecting (env : SysEnv) (raise : Raise) (debugMode : Bool) {insn : Word} {ir : Insn}
    (h : rvDecodeInto true env.extC {} insn = .illegal ir) :
    ∃ r, trapExec env raise debugMode {} insn (rejecting insn) = some r ∧ r.2.seen.PC = 4 := by
  obtain ⟨s', hrun, hpc⟩ := (rvDecodeInto_harmless h).runAlone env raise debugMode
    (s := (rejecting insn).tweak (isCompressed insn, 0)) rfl
  refine ⟨(ir, s'), ?_, hpc⟩
  unfold trapExec decodeOver
  rw [h]
  change ((runAlone env raise debugMode ir ((rejecting insn).tweak (isCompressed insn, 0))).bind _) = _
  rw [hrun]
  rfl

/-- `rv_step_debug` raises the exception; without a trap vector the machine stays where it is. -/
theorem debugExec_rejecting (env : SysEnv) (fuel : Nat) (debugMode : Bool) {insn : Word} {ir : Insn}
    (h : rvDecodeInto true env.extC {} insn = .illegal ir) :
    ∃ r, debugExec env (sysRaise env fuel) debugMode insn (rejecting insn) = some r ∧ r.2.seen.PC = 0 := by
  unfold debugExec
  rw [h]
  exact ⟨_, rfl, rfl⟩

/-- A turn of the nested loop on the node `ir` does what `rv_step_debug` does. -/
def TrapAgrees (env : SysEnv) (debugMode : Bool) (fuel : Nat) (ir : Insn) (s : Sys) : Prop :=
  (trapIteration env (sysRaise env fuel) debugMode fuel ir s).map (fun r => r.2.seen) =
    (sysStepDebug env (sysRaise env fuel) (sysTrapHandler env fuel) debugMode fuel s).map fun r => r.2.seen

theorem trapAgrees_of_fetch {env : SysEnv} {debugMode : Bool} {fuel : Nat} {ir : Insn} {s s1 : Sys}
    {insn : Word} (hnz : insn ≠ 0) (hfetch : fetchRetry env (sysRaise env fuel) fuel s = some (insn, s1)) :
    TrapAgrees env debugMode fuel ir s ↔
      (trapExec env (sysRaise env fuel) debugMode ir insn s1).map (fun r => r.2.seen) =
        (debugExec env (sysRaise env fuel) debugMode insn s1).map fun r => r.2.seen := by
  have hturn : trapIteration env (sysRaise env fuel) debugMode fuel ir s =
      (trapExec env (sysRaise env fuel) debugMode ir insn s1).map fun r => (some r.1, r.2) := by
    change ((fetchRetry env (sysRaise env fuel) fuel s).bind _) = _
    rw [hfetch]
    change (if insn = 0 then _ else _ : SysM (Option Insn)) s1 = _
    rw [if_neg hnz]
    change ((trapExec env (sysRaise env fuel) debugMode ir insn s1).bind _) = _
    cases trapExec env (sysRaise env fuel) debugMode ir insn s1 <;> rfl
  have hdebug : sysStepDebug env (sysRaise env fuel) (sysTrapHandler env fuel) debugMode fuel s =
      debugExec env (sysRaise env fuel) debugMode insn s1 := by
    change ((fetchRetry env (sysRaise env fuel) fuel s).bind _) = _
    rw [hfetch]
    change (if insn = 0 then _ else _ : SysM Unit) s1 = _
    rw [if_neg hnz]
  unfold TrapAgrees
  rw [hturn, hdebug, Option.map_map]
  rfl

/-- **The nested loop executes a word like `rv_step_debug` exactly if the decoder does not reject it.** -/
theorem trapIteration_agrees_iff {env : SysEnv} (henv : env.IgnoresLength) (debugMode : Bool) {insn : Word}
    (hnz : insn ≠ 0) :
    (∀ fuel ir s s1, fetchRetry env (sysRaise env fuel) fuel s = some (insn, s1) →
      TrapAgrees env debugMode fuel ir s) ↔ ∀ ir, rvDecodeInto true env.extC {} insn ≠ .illegal ir := by
  constructor
  · intro hall ir hill
    have hfetch := fetchRetry_rejecting env (sysRaise env 1) 0 hnz
    have hag := (trapAgrees_of_fetch hnz hfetch).mp (hall 1 {} (rejecting insn) _ hfetch)
    obtain ⟨r, hr, hpc⟩ := trapExec_rejecting env (sysRaise env 1) debugMode hill
    obtain ⟨r', hr', hpc'⟩ := debugExec_rejecting env 1 debugMode hill
    rw [hr, hr'] at hag
    have hseen : r.2.seen = r'.2.seen := Option.some.inj hag
    rw [hseen, hpc'] at hpc
    exact absurd hpc (by decide)
  · intro hok fuel ir s s1 hfetch
    exact (trapAgrees_of_fetch hnz hfetch).mpr (trapExec_seen henv fuel debugMode hok ir s1)

theorem deviceless_ignoresLength : deviceless.IgnoresLength :=
  ⟨fun _ _ _ => rfl, fun _ _ _ _ _ _ => rfl, fun _ _ _ _ _ => rfl, fun _ _ _ _ _ => rfl⟩

theorem trapIteration_agrees_addi :
    (0x00108093 : Word) ≠ 0 ∧ ∀ fuel ir s s1,
      fetchRetry deviceless (sysRaise deviceless fuel) fuel s = some (0x00108093, s1) →
        TrapAgrees deviceless false fuel ir s :=
  ⟨by decide, (trapIteration_agrees_iff deviceless_ignoresLength false (by decide)).mpr fun ir h => by
    have hok : rvDecodeInto true deviceless.extC {} 0x00108093 =
      .ok { opcode := .addi, rd := 1, rs1 := 1, imm := 1 } := rfl
    rw [hok] at h
    cases h⟩

/-- A trap handler of two words: `addi ra, ra, 1` and one that no decoder accepts. -/
def patchedHandler : Sys :=
  { cpu := Cpu.zero (Mem.writeW (Mem.writeW (fun _ => 0) 0 0x00108093) 4 0xffffffff), isTrapped := true }

/-- The rejected word adds to `ra` once more, and no exception is raised. -/
theorem trapIteration_executes_rejected :
    ∃ ir s1, trapIteration deviceless (sysRaise deviceless 1) false 1 {} patchedHandler = some (some ir, s1) ∧
      fetchRetry deviceless (sysRaise deviceless 1) 1 s1 = some (0xffffffff, s1) ∧
      rvDecodeInto true deviceless.extC {} 0xffffffff = .illegal {} ∧
      ¬ TrapAgrees deviceless false 1 ir s1 := by
  refine ⟨_, _, rfl, rfl, rfl, fun h => ?_⟩
  have hx := congrArg (Option.map fun s : Cpu => s.X 1) h
  revert hx
  decide +kernel

end Rv32emu
