import Rv32emu.Block
import Rv32emu.Constopt
import Rv32emu.Fusion

/-!
# The block engine

`rv_step` of the user-mode interpreter build, with the block map, the L1 block cache and the block
linker. Handlers tail-call each other across blocks, possibly for ever, so the engine is a transition
function on configurations: one step is one test of the loop condition, one dispatch, or one handler.

* `Block`, `Engine` : translated blocks and the structures they are found in. A block is named by a
  number that is never used again; freeing a block removes its name;
* `blockFindOrTranslate` : `block_find_or_translate` with `block_translate` inlined;
* `Block.link` : the linking rules of `rv_step`;
* `Conf`, `Conf.step`, `Conf.stepN` : the transition function and its runs, with the events a step
  produces;
* `rvStepDebug` : one call of `rv_step_debug`.
-/

namespace Rv32emu

/-! ## Blocks -/

/-- `branch_history_table_t`: `PC` tags and targets. -/
abbrev BranchTable := BitVec 4 → Word × Option Ref

/-- `block_t`. Only the tail of a block is ever linked or given a branch history table. -/
structure Block where
  pcStart : Word
  irs : List Insn
  pageTerminated : Bool
  links : Links := {}
  branchTable : BranchTable := fun _ => (0xffffffff, none)

def Block.tailOp (b : Block) : Opcode := (b.irs.getLastD {}).opcode

/-- The `block_l1_cache_t`: tags and pointers. -/
abbrev BlockL1 := BitVec 8 → Word × Option Ref

/-- The blocks and what they are found with. `index` is the hash table: linear probing with no
removal finds the block inserted for an address. -/
structure BlockMap (B : Type) where
  block : Ref → Option B := fun _ => none
  index : Word → Option Ref := fun _ => none
  size : Nat := 0
  l1 : BlockL1 := fun _ => (0xffffffff, none)
  prev : Option Ref := none
  /-- The name the next block gets. -/
  fresh : Ref := 0

/-- The slot of an address in the L1 cache. -/
def l1Index (extC : Bool) (pc : Word) : BitVec 8 := (pc >>> (if extC then 1 else 2)).setWidth 8

namespace BlockMap

variable {B : Type}

def blockLookupOrFind (extC : Bool) (e : BlockMap B) (pc : Word) : Option Ref × BlockMap B :=
  let idx := l1Index extC pc
  if (e.l1 idx).1 = pc then ((e.l1 idx).2, e)
  else match e.index pc with
    | some r => (some r, { e with l1 := Function.update e.l1 idx (pc, some r) })
    | none => (none, e)

def blockMapClear (e : BlockMap B) : BlockMap B :=
  { e with block := fun _ => none, index := fun _ => none, size := 0,
           l1 := fun _ => (0xffffffff, none) }

/-- `block_insert` of a block that starts at `pc`, under a new name. An earlier block for the same
address comes first on the probe chain. -/
def blockInsert (extC : Bool) (e : BlockMap B) (pc : Word) (b : B) : BlockMap B :=
  { e with block := Function.update e.block e.fresh (some b)
           index := if (e.index pc).isSome then e.index
                    else Function.update e.index pc (some e.fresh)
           size := e.size + 1
           l1 := Function.update e.l1 (l1Index extC pc) (pc, some e.fresh)
           fresh := e.fresh + 1 }

def modify (e : BlockMap B) (r : Ref) (f : B → B) : BlockMap B :=
  { e with block := Function.update e.block r ((e.block r).map f) }

end BlockMap

/-- The block structures of the user-mode build. -/
abbrev Engine := BlockMap Block

/-! ## Translation -/

/-- The allocators and the configured step length. `blockAlloc` and `fuseAlloc` say whether the pools
have room when the block of a given name is translated. -/
structure Host where
  blockAlloc : Ref → Bool
  fuseAlloc : Ref → Word → Bool
  cyclePerStep : BitVec 32

/-- What a step of the engine does besides changing the state. -/
inductive Event
  /-- `block_translate` raises an illegal-instruction trap with this `rv->PC`. -/
  | illegal (epc : Word)
  /-- A handler is called on a node with this `PC`. -/
  | exec (ir : Insn) (pc : Word)
  /-- A handler tail-calls the head of a block with this `PC`. -/
  | tailCall (r : Ref) (pc : Word)

/-- `BLOCK_MAP_CAPACITY_BITS` is 10; `size * 1.25 > capacity`. -/
def mapFull (size : Nat) : Bool := 4 * 1024 < 5 * size

/-- The trap of `block_translate`, with `rv->PC` at the start of the block. -/
def raiseIllegal (env : Env) (s : Cpu) : Stop → Cpu × List Event
  | .illegal insn =>
    (raise env .illegalInsn insn { s with compressed := isCompressed insn }, [.illegal s.PC])
  | _ => (s, [])

/-- `block_find_or_translate` at `rv->PC`; `none` is `NULL`. -/
def blockFindOrTranslate (env : Env) (host : Host) (e : Engine) (s : Cpu) :
    Option Ref × Engine × Cpu × List Event :=
  match e.blockLookupOrFind env.extC s.PC with
  | (some r, e) => (some r, e, s, [])
  | (none, e) =>
    let e := if mapFull e.size then { e.blockMapClear with prev := none } else e
    if !host.blockAlloc e.fresh then (none, e, s, [])
    else
      let t := blockTranslate env.extC s.ifetch s.PC
      let (s', events) := raiseIllegal env s t.2.2
      -- an assertion of the decoder, and `assert(rv->X[0] == 0)` in `optimize_constant`
      if t.2.2 = .abort ∨ (t.1 ≠ [] ∧ s'.X regZero ≠ 0) then
        (none, e, { s' with aborted := true }, events)
      else if t.1 = [] then (none, e, s', events)
      else
        let b : Block :=
          { pcStart := s.PC, pageTerminated := t.2.2 = .page,
            irs := matchPattern (host.fuseAlloc e.fresh) (optimizeConstant t.1) }
        (some e.fresh, e.blockInsert env.extC b.pcStart b, s', events)

/-! ## Linking -/

/-- The links of `prev->ir_tail` once the block `r` has been found to follow it. -/
def Block.link (b : Block) (isBranchTaken : Bool) (r : Ref) : Block :=
  let taken := { b with links := { b.links with taken := b.links.taken.or (some r) } }
  if b.pageTerminated then taken
  else if !b.tailOp.isUnconditionalBranch then
    if isBranchTaken then taken
    else { b with links := { b.links with untaken := b.links.untaken.or (some r) } }
  else if b.tailOp.isDirectBranch then taken
  else b

/-- An entry of the branch history table of the tail. -/
def Block.recordBranch (b : Block) (idx : BitVec 4) (pc : Word) (r : Ref) : Block :=
  { b with branchTable := Function.update b.branchTable idx (pc, some r) }

/-! ## Configurations -/

/-- Where `rv_step` is. -/
inductive Loc
  /-- Between two calls. -/
  | left
  /-- At the loop condition. -/
  | head
  /-- In the handler of the first of the nodes `rest`, at the end of block `cur`; `disp` is the local
  variable `block` of `rv_step`. -/
  | run (disp cur : Ref) (rest : List Insn) (cycle : BitVec 64) (pc : Word)
  /-- The process is gone: a failed assertion, or a call through a dangling pointer. -/
  | dead

structure Conf where
  eng : Engine
  cpu : Cpu
  /-- `cycles_target`. -/
  target : BitVec 64 := 0
  loc : Loc := .left

namespace Conf

/-- A handler has returned `ok` to `rv_step`. -/
def handlerReturned (c : Conf) (disp : Ref) (ok : Bool) : Conf :=
  if ok then { c with eng := { c.eng with prev := some disp }, loc := .head }
  else { c with eng := { c.eng with prev := none }, loc := .left }

/-- Tail call of the head of block `r`. -/
def enter (c : Conf) (disp r : Ref) (cycle : BitVec 64) (pc : Word) : Conf × List Event :=
  match c.eng.block r with
  | some b => ({ c with loc := .run disp r b.irs cycle pc }, [.tailCall r pc])
  | none => ({ c with loc := .dead }, [.tailCall r pc])

/-- `LOOKUP_OR_UPDATE_BRANCH_HISTORY_TABLE` on the tail of block `cur`, then `end_op`. -/
def lookupBranch (c : Conf) (disp cur : Ref) (cycle : BitVec 64) (pc : Word) : Conf × List Event :=
  let idx : BitVec 4 := (pc >>> 2).setWidth 4
  let entry := match c.eng.block cur with
    | some b => b.branchTable idx
    | none => (0, none)
  match (if entry.1 = pc then entry.2 else none), c.eng.index pc with
  | some r, _ => c.enter disp r cycle pc
  | none, some r =>
    { c with eng := c.eng.modify cur fun b => b.recordBranch idx pc r }.enter disp r cycle pc
  | none, none => ({ c with cpu := c.cpu.save cycle pc }.handlerReturned disp true, [])

def stepRun (env : Env) (c : Conf) (disp cur : Ref) (rest : List Insn) (cycle : BitVec 64) (pc : Word) :
    Conf × List Event :=
  match rest with
  | [] => ({ c with loc := .dead }, [])
  | ir :: rest =>
    let lk : Links := if rest.isEmpty then (c.eng.block cur).elim {} Block.links else {}
    let (c', events) : Conf × List Event :=
      match impl env ir lk rest.isEmpty cycle pc c.cpu with
      | .next cycle pc s => ({ c with cpu := s, loc := .run disp cur rest cycle pc }, [])
      | .enter r cycle pc s => { c with cpu := s }.enter disp r cycle pc
      | .lookup cycle pc s => { c with cpu := s }.lookupBranch disp cur cycle pc
      | .ret ok s => ({ c with cpu := s }.handlerReturned disp ok, [])
      | .trap t s =>
        let (s, ok) := t.take env s
        if s.aborted then ({ c with cpu := s, loc := .dead }, [])
        else ({ c with cpu := s }.handlerReturned disp ok, [])
    (c', .exec ir pc :: events)

/-- The start of an iteration: look up `prev` again if blocks have been chained, and find the block at
`rv->PC`. -/
def refreshPrev (env : Env) (c : Conf) : Engine :=
  match c.eng.prev with
  | none => c.eng
  | some p =>
    if (c.eng.block p).any fun b => b.pcStart = c.cpu.lastPc then c.eng
    else
      let r := c.eng.blockLookupOrFind env.extC c.cpu.lastPc
      { r.2 with prev := r.1 }

/-- The rest of the iteration up to the call of the first handler. -/
def dispatch (env : Env) (host : Host) (c : Conf) : Conf × List Event :=
  match blockFindOrTranslate env host (c.refreshPrev env) c.cpu with
  | (none, e, s, events) =>
    if s.aborted then ({ c with eng := e, cpu := s, loc := .dead }, events)
    else ({ c with eng := e, cpu := { s with halt := true }, loc := .left }, events)
  | (some r, e, s, events) =>
    match e.block r with
    | none => ({ c with eng := e, cpu := s, loc := .dead }, events)
    | some b =>
      let onExit := s.onExit || (b.irs.headD {}).pc = env.exitAddr
      let e := match e.prev with
        | some p => e.modify p fun b => b.link s.isBranchTaken r
        | none => e
      let s := { s with onExit, lastPc := s.PC }
      ({ c with eng := e, cpu := s, loc := .run r r b.irs s.csr.cycle s.PC }, events)

/-- One step of a program that calls `rv_step` for ever. -/
def step (env : Env) (host : Host) (c : Conf) : Conf × List Event :=
  match c.loc with
  | .left => ({ c with target := c.cpu.csr.cycle + host.cyclePerStep.setWidth 64, loc := .head }, [])
  | .head =>
    if c.cpu.csr.cycle < c.target ∧ c.cpu.halt = false then c.dispatch env host
    else ({ c with loc := .left }, [])
  | .run disp cur rest cycle pc => c.stepRun env disp cur rest cycle pc
  | .dead => (c, [])

/-- The configuration after `n` steps, with the events on the way. -/
def stepN (env : Env) (host : Host) : Nat → Conf → Conf × List Event
  | 0, c => (c, [])
  | n + 1, c =>
    let r := c.step env host
    let r' := stepN env host n r.1
    (r'.1, r.2 ++ r'.2)

theorem stepN_add (env : Env) (host : Host) (m n : Nat) (c : Conf) :
    c.stepN env host (m + n) =
      (((c.stepN env host m).1.stepN env host n).1,
        (c.stepN env host m).2 ++ ((c.stepN env host m).1.stepN env host n).2) := by
  induction m generalizing c with
  | zero => simp [stepN]
  | succ m ih =>
    rw [Nat.add_right_comm, stepN, ih]
    simp only [stepN, List.append_assoc]

theorem stepN_succ (env : Env) (host : Host) (n : Nat) (c : Conf) :
    c.stepN env host (n + 1) =
      (((c.stepN env host n).1.step env host).1,
        (c.stepN env host n).2 ++ ((c.stepN env host n).1.step env host).2) := by
  rw [stepN_add]
  simp [stepN]

end Conf

/-! ## The debugger's engine -/

/-- One call of `rv_step_debug`. The handler has no next node and no links, and the branch history
table is not consulted. -/
def rvStepDebug (env : Env) (s : Cpu) : Cpu :=
  let s := { s with onExit := s.onExit || s.PC = env.exitAddr }
  let insn := s.ifetch s.PC
  if insn = 0 then s
  else match rvDecode env.extC insn with
    | .abort => { s with aborted := true }
    | .illegal _ => raise env .illegalInsn insn { s with compressed := isCompressed insn }
    | .ok ir =>
      match doRvop env { ir with pc := s.PC } {} true s.csr.cycle s.PC s with
      | .next cycle pc s | .enter _ cycle pc s | .lookup cycle pc s => s.save cycle pc
      | .ret _ s => s
      | .trap t s => (t.take env s).1

end Rv32emu
