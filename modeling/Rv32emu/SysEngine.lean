import Rv32emu.Engine
import Rv32emu.LazyFusion
import Rv32emu.SysTemplate

/-!
# The block engine of the `SYSTEM` builds

`rv_step` of a `SYSTEM` interpreter build as a transition function: interrupts are checked once an
iteration, translation fetches through the MMU and may run the guest's trap handler, and a handler may
hand control back early because of a pending signal.

* `SysBlock` : a block with its lazy fusion candidates;
* `sysTranslateLoop`, `sysBlockTranslate`, `SysConf.findOrTranslate` : `block_translate` and
  `block_find_or_translate`;
* `rvCheckInterrupt`;
* `SysConf`, `SysConf.step`, `SysConf.run` : configurations, the transition function and its runs.
-/

namespace Rv32emu

/-! ## Blocks -/

theorem Block.link_irs (b : Block) (taken : Bool) (r : Ref) : (b.link taken r).irs = b.irs := by
  unfold Block.link
  split_ifs <;> rfl

/-- `block_t` of a `SYSTEM` build. `segs` is the IR list cut at the pending candidates. -/
structure SysBlock extends Block where
  /-- `pc_end`. -/
  pcEnd : Word
  segs : List Seg
  irs_eq : irs = segs.flatMap Seg.irs

namespace SysBlock

/-- `block->ir_tail`. -/
def tail (b : SysBlock) : Insn := b.irs.getLastD {}

/-- The links of `prev->ir_tail` once the block `r` has been found to follow it. -/
def link (b : SysBlock) (isBranchTaken : Bool) (r : Ref) : SysBlock :=
  { b with toBlock := b.toBlock.link isBranchTaken r
           irs_eq := (b.toBlock.link_irs isBranchTaken r).trans b.irs_eq }

/-- An entry of the branch history table of the tail. -/
def recordBranch (b : SysBlock) (idx : BitVec 4) (pc : Word) (r : Ref) : SysBlock :=
  { b with toBlock := b.toBlock.recordBranch idx pc r, irs_eq := b.irs_eq }

/-- `try_lazy_fusion` on a block. -/
def fuseLazily (env : SysEnv) (alloc : Word → Bool) (s : Cpu) (b : SysBlock) : SysBlock :=
  { b with segs := tryLazyFusion env alloc s b.segs
           irs := (tryLazyFusion env alloc s b.segs).flatMap Seg.irs
           irs_eq := rfl }

def ofSegs (pcStart pcEnd : Word) (pageTerminated : Bool) (segs : List Seg) : SysBlock where
  pcStart := pcStart
  pcEnd := pcEnd
  pageTerminated := pageTerminated
  segs := segs
  irs := segs.flatMap Seg.irs
  irs_eq := rfl

end SysBlock

/-! ## Translation -/

/-- Why `block_translate` left its loop. -/
inductive SysStop
  | branch
  | page
  /-- Nothing was fetched, or the word was illegal and its trap has been raised. -/
  | stopped
  /-- Nothing was fetched and `need_retranslate` was set. -/
  | retranslate
  deriving DecidableEq, Repr

/-- The loop of `block_translate`: the nodes from `pc` on, `pc_end`, and why it stopped. -/
def sysTranslateLoop (env : SysEnv) (raise : Raise) (pEnd : Word) :
    Nat → Word → SysM (List Insn × Word × SysStop)
  | 0, _ => failure
  | n + 1, pc => do
    let insn ← mmuIfetch env raise pc
    if insn = 0 then
      if (← get).needRetranslate then
        modify fun s => { s with needRetranslate := false }
        return ([], pc, .retranslate)
      else return ([], pc, .stopped)
    else match rvDecodeInto true env.extC {} insn with
      | .abort => failure
      | .illegal _ =>
        modifyCpu fun s => { s with compressed := isCompressed insn }
        raise .illegalInsn insn
        return ([], pc, .stopped)
      | .ok ir =>
        let pc' := pc + insnLen insn
        if ir.opcode.canBranch then return ([{ ir with pc }], pc', .branch)
        else if pEnd ≤ pc' then return ([{ ir with pc }], pc', .page)
        else
          let rest ← sysTranslateLoop env raise pEnd n pc'
          return ({ ir with pc } :: rest.1, rest.2)

/-- What `block_translate` has decoded. -/
structure Decoding where
  pcStart : Word
  irs : List Insn
  pcEnd : Word
  pageTerminated : Bool

/-- `block_translate`, which starts again at `rv->PC` after `need_retranslate`. -/
def sysBlockTranslate (env : SysEnv) (raise : Raise) : Nat → SysM Decoding
  | 0 => failure
  | n + 1 => do
    let pc := (← get).cpu.PC
    let (irs, pcEnd, stop) ← sysTranslateLoop env raise (pageEnd pc) 2048 pc
    if stop = .retranslate then sysBlockTranslate env raise n
    else return ⟨pc, irs, pcEnd, stop = .page⟩

/-! ## Interrupts -/

/-- The interrupt that `rv_check_interrupt` takes, by the highest pending bit. -/
def interruptCause (pending : Word) : Option SysCause :=
  match pending.toNat.log2 with
  | 1 => some .supervisorSwIntr
  | 5 => some .supervisorTimerIntr
  | 9 => some .supervisorExternalIntr
  | _ => none

/-- The timer comparison of `rv_check_interrupt`. -/
def updateSti (env : SysEnv) (s : Sys) : Sys :=
  let sip := s.cpu.csr.sip
  let sip := if env.attrTimer s.cpu.host < s.cpu.csr.cycle + s.timerOffset then sip ||| 0x20
    else sip &&& ~~~(0x20 : Word)
  { s with cpu := { s.cpu with csr := { s.cpu.csr with sip } } }

def rvCheckInterrupt (env : SysEnv) (raise : Raise) : SysM Unit := do
  modifyCpu (Cpu.callHost env.poll)
  modify (updateSti env)
  let s := (← get).cpu
  let pending := s.csr.sip &&& s.csr.sie
  if (s.csr.sstatus &&& 0x2 ≠ 0 ∨ s.privMode = 0) ∧ pending ≠ 0 then
    match interruptCause pending with
    | some cause => raise cause 0
    | none => return ()

/-! ## Configurations -/

/-- The allocators, the configured step length, and how many instructions a nested trap handler is
given. -/
structure SysHost extends Host where
  lazyAlloc : BitVec 64 → Word → Bool
  fuel : Nat

inductive SysEvent
  /-- A handler running in block `cur` has returned because of `need_handle_signal`. -/
  | signal (cur : Ref)
  deriving DecidableEq, Repr

structure SysConf where
  eng : BlockMap SysBlock := {}
  sys : Sys
  /-- `cycles_target`. -/
  target : BitVec 64 := 0
  loc : Loc := .left

namespace SysConf

/-- What the nested interpreter has noted for the engine takes effect. -/
def settle (c : SysConf) (s : Sys) : SysConf :=
  let e := if s.blockMapCleared then c.eng.blockMapClear else c.eng
  { c with eng := if s.prevNull then { e with prev := none } else e
           sys := { s with blockMapCleared := false, prevNull := false } }

/-- A handler has returned `ok` to `rv_step`. -/
def handlerReturned (c : SysConf) (disp : Ref) (ok : Bool) : SysConf :=
  if ok then { c with eng := { c.eng with prev := some disp }, loc := .head }
  else { c with eng := { c.eng with prev := none }, loc := .left }

/-- Tail call of the head of block `r`. -/
def enter (c : SysConf) (disp r : Ref) (cycle : BitVec 64) (pc : Word) : SysConf :=
  match c.eng.block r with
  | some b => { c with loc := .run disp r b.irs cycle pc }
  | none => { c with loc := .dead }

theorem enter_eng (c : SysConf) (disp r : Ref) (cycle : BitVec 64) (pc : Word) :
    (c.enter disp r cycle pc).eng = c.eng := by
  unfold enter
  split
  · rfl
  · rfl

/-- `LOOKUP_OR_UPDATE_BRANCH_HISTORY_TABLE` on the tail of block `cur`, then the rest of the handler. -/
def lookupBranch (c : SysConf) (disp cur : Ref) (ir : Insn) (cycle : BitVec 64) (pc : Word) : SysConf :=
  let idx : BitVec 4 := (pc >>> 2).setWidth 4
  let entry := match c.eng.block cur with
    | some b => b.branchTable idx
    | none => (0, none)
  match (if entry.1 = pc then entry.2 else none), c.eng.index pc with
  | some r, _ => c.enter disp r cycle pc
  | none, some r =>
    { c with eng := c.eng.modify cur fun b => b.recordBranch idx pc r }.enter disp r cycle pc
  | none, none =>
    let s := if ir.opcode = .jalr then relocateEnableMmu c.sys else c.sys
    { c with sys := { s with cpu := s.cpu.save cycle pc } }.handlerReturned disp true

/-- One handler. After a nested handler has cleared the block map the node is gone; only a handler that
returns at once does not use it again. -/
def stepRun (env : SysEnv) (host : SysHost) (c : SysConf) (disp cur : Ref) (rest : List Insn)
    (cycle : BitVec 64) (pc : Word) : SysConf × Option SysEvent :=
  match rest with
  | [] => ({ c with loc := .dead }, none)
  | ir :: rest =>
    let lk : Links := if rest.isEmpty then (c.eng.block cur).elim {} fun b => b.links else {}
    match sysImpl env (sysRaise env host.fuel) ir lk rest.isEmpty cycle pc c.sys with
    | none => ({ c with loc := .dead }, none)
    | some (ctl, s) =>
      let c := c.settle s
      match ctl with
      | .signal => (c.handlerReturned disp true, some (.signal cur))
      | .ret ok => (c.handlerReturned disp ok, none)
      | .next cycle pc =>
        if (c.eng.block cur).isNone then ({ c with loc := .dead }, none)
        else ({ c with loc := .run disp cur rest cycle pc }, none)
      | .enter r cycle pc =>
        if (c.eng.block cur).isNone then ({ c with loc := .dead }, none)
        else (c.enter disp r cycle pc, none)
      | .lookup cycle pc =>
        if (c.eng.block cur).isNone then ({ c with loc := .dead }, none)
        else (c.lookupBranch disp cur ir cycle pc, none)

/-- `prev`, looked up again if blocks have been chained; `none` if it is a dangling pointer. -/
def refreshPrev (env : SysEnv) (c : SysConf) : Option (BlockMap SysBlock) :=
  match c.eng.prev with
  | none => some c.eng
  | some p =>
    match c.eng.block p with
    | none => none
    | some b =>
      if b.pcStart = c.sys.cpu.lastPc then some c.eng
      else
        let r := c.eng.blockLookupOrFind env.extC c.sys.cpu.lastPc
        some { r.2 with prev := r.1 }

/-- The IR list that `optimize_constant` and `match_pattern` make of the decoded nodes. -/
def optimize (env : SysEnv) (alloc : Word → Bool) (irs : List Insn) : List Seg :=
  let irs := optimizeConstant irs
  if !env.mopFusion then irs.map .node
  else if env.elfLoader then (matchPattern alloc irs).map .node
  else matchPatternMmio alloc 0 0 irs

/-- `block_find_or_translate` at `rv->PC`. The outer `none` ends the process, the inner one is
`NULL`. -/
def findOrTranslate (env : SysEnv) (host : SysHost) (c : SysConf) : Option (Option Ref × SysConf) :=
  match c.eng.blockLookupOrFind env.extC c.sys.cpu.PC with
  | (some r, e) =>
    let e := if env.mopFusion && !env.elfLoader then
        e.modify r fun b => b.fuseLazily env (host.lazyAlloc c.sys.cpu.csr.cycle) c.sys.cpu
      else e
    some (some r, { c with eng := e })
  | (none, e) =>
    let e := if mapFull e.size then { e.blockMapClear with prev := none } else e
    let c := { c with eng := e }
    if !host.blockAlloc e.fresh then some (none, c)
    else match sysBlockTranslate env (sysRaise env host.fuel) host.fuel c.sys with
      | none => none
      | some (d, s) =>
        let c := c.settle s
        if d.irs = [] then some (none, c)
        else if c.sys.cpu.X regZero ≠ 0 then none
        else
          let b := SysBlock.ofSegs d.pcStart d.pcEnd d.pageTerminated
            (optimize env (host.fuseAlloc e.fresh) d.irs)
          some (some c.eng.fresh, { c with eng := c.eng.blockInsert env.extC d.pcStart b })

/-- No block: a pending trap is handled, otherwise the machine halts. -/
def noBlock (env : SysEnv) (host : SysHost) (c : SysConf) : SysConf :=
  if c.sys.isTrapped then
    match sysTrapHandler env host.fuel c.sys with
    | none => { c with loc := .dead }
    | some (_, s) =>
      let c := c.settle s
      { c with eng := { c.eng with prev := none }, loc := .head }
  else { c with sys := { c.sys with cpu := { c.sys.cpu with halt := true } }, loc := .left }

/-- The linking rules, and the start of block `r`. -/
def linkAndRun (c : SysConf) (r : Ref) : SysConf :=
  match c.eng.block r with
  | none => { c with loc := .dead }
  | some b =>
    let s := c.sys.cpu
    let e := match c.eng.prev with
      | some p => c.eng.modify p fun b => b.link s.isBranchTaken r
      | none => c.eng
    { c with eng := e, sys := { c.sys with cpu := { s with lastPc := s.PC } },
             loc := .run r r b.irs s.csr.cycle s.PC }

/-- `rv_check_interrupt` at the start of an iteration of a `SYSTEM_MMIO` build. -/
def checkInterrupt (env : SysEnv) (host : SysHost) (c : SysConf) : Option SysConf :=
  if env.elfLoader then some c
  else (rvCheckInterrupt env (sysRaise env host.fuel) c.sys).map fun r => c.settle r.2

/-- An iteration of the loop up to the block that is to run next. -/
def nextBlock (env : SysEnv) (host : SysHost) (c : SysConf) : Option (Option Ref × SysConf) := do
  let c ← c.checkInterrupt env host
  let e ← c.refreshPrev env
  findOrTranslate env host { c with eng := e }

/-- One iteration of the loop up to the call of the first handler. -/
def dispatch (env : SysEnv) (host : SysHost) (c : SysConf) : SysConf :=
  match c.nextBlock env host with
  | none => { c with loc := .dead }
  | some (none, c) => c.noBlock env host
  | some (some r, c) => c.linkAndRun r

/-- One step of a program that calls `rv_step` for ever. -/
def step (env : SysEnv) (host : SysHost) (c : SysConf) : SysConf × Option SysEvent :=
  match c.loc with
  | .left =>
    ({ c with target := c.sys.cpu.csr.cycle + host.cyclePerStep.setWidth 64, loc := .head }, none)
  | .head =>
    if c.sys.cpu.csr.cycle < c.target ∧ c.sys.cpu.halt = false then (c.dispatch env host, none)
    else ({ c with loc := .left }, none)
  | .run disp cur rest cycle pc => c.stepRun env host disp cur rest cycle pc
  | .dead => (c, none)

/-- The configuration after `n` steps. -/
def run (env : SysEnv) (host : SysHost) (c : SysConf) : Nat → SysConf
  | 0 => c
  | n + 1 => ((run env host c n).step env host).1

end SysConf

end Rv32emu
