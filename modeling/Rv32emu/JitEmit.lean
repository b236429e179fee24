import Rv32emu.Fallible
import Rv32emu.Machine
import Mathlib.Data.List.Pairwise
import Mathlib.Data.List.FinRange

/-!
# The tier-1 translator

`jit.c` and `rv32_jit.c` on an x86-64 host, as far as the layout of the code they emit goes: what is
appended to the code buffer, the jump records, the offset map, and when the buffer is flushed. The host
instructions between two jumps depend on the register allocation; they are a parameter `code`, one list
of `emit_bytes` calls for each stretch of a node.

* `CodeSet`, `setHas`, `setAdd` : `set_t` of `utils.c`;
* `JitState`, `emitBytes`, `emitJumpTargetOffset`, `emitJumpTargetAddress` : the emitters;
* `Emit`, `emitOps` : the calls a handler makes;
* `dispatch` : the handlers, one shape for each family;
* `translate`, `translateChainedBlock`, `resolveJumps`, `codeCacheFlush`, `jitTranslate` : as in the source.
-/

namespace Rv32emu

/-! ## The set of translated blocks -/

/-- How a call of the translator can stop short. -/
inductive JitFault
  /-- A failed assertion. -/
  | assert
  /-- A null pointer is read. -/
  | null
  | outOfFuel
  deriving DecidableEq, Repr

/-- The build of `jit.c`. `mmio` is `SYSTEM_MMIO`. -/
structure JitBuild where
  system : Bool := false
  mmio : Bool := false
  deriving DecidableEq, Repr

def setSlotsSize : Nat := 32

def setSize : Nat := 1024

def rvHashKey (bld : JitBuild) (satp pc : Word) : BitVec 64 :=
  if bld.system then satp ++ pc else pc.setWidth 64

/-- `set_hash`, on 64 bits in a `SYSTEM` build. -/
def setHash (bld : JitBuild) (key : BitVec 64) : Nat :=
  if bld.system then ((key * 0x61c8864680b583eb#64) >>> 54 &&& 0x3ff#64).toNat
  else ((key.setWidth 32 * 0x61c88647#32) >>> 22 &&& 0x3ff#32).toNat

/-- `set_t`: the slots of each bucket up to the first that is 0. -/
abbrev CodeSet := Nat → List (BitVec 64)

/-- `set_has`. In a full bucket the loop goes on to the slot after it, which is the first of the next
bucket, and asserts that it is 0. -/
def setHas (bld : JitBuild) (t : CodeSet) (key : BitVec 64) : Except JitFault Bool :=
  let i := setHash bld key
  if key ∈ t i then .ok true
  else if (t i).length < setSlotsSize ∨ (i + 1 < setSize ∧ t (i + 1) = []) then .ok false
  else .error .assert

/-- `set_add`. The key 0 is written over a slot that is 0 already. -/
def setAdd (bld : JitBuild) (t : CodeSet) (key : BitVec 64) : Except JitFault (CodeSet × Bool) :=
  let i := setHash bld key
  if key ∈ t i then .ok (t, false)
  else if setSlotsSize ≤ (t i).length then .error .assert
  else if key = 0 then .ok (t, true)
  else .ok (Function.update t i (t i ++ [key]), true)

/-! ## The state of the translator -/

def maxJumps : Nat := 1024

def maxBlocks : Nat := 8192

/-- The `size` of the buffer that `rv_create` asks for. -/
def codeCacheSize : Nat := 4 * 1024 * 1024

def targetPcExit : Word := 0xffffffff

def targetPcRetpoline : Word := 0xfffffffd

def jccJmp : Byte := 0xe9

structure Jump where
  offsetLoc : Nat
  targetPc : Word := 0
  targetOffset : Nat := 0
  targetSatp : Word := 0
  deriving DecidableEq, Repr

/-- `struct offset_map`. -/
structure OffsetEntry where
  pc : Word
  offset : Nat
  satp : Word
  deriving DecidableEq, Repr

/-- What a jump record has been made for. The record itself does not say. -/
inductive JumpFor
  /-- A jump of the code of one node to `target`. -/
  | inner (loc target : Nat)
  /-- `emit_exit`. -/
  | exit (loc : Nat)
  /-- `emit_jmp`. -/
  | guest (loc : Nat) (pc satp : Word)
  deriving DecidableEq, Repr

def JumpFor.loc : JumpFor → Nat
  | .inner loc _ => loc
  | .exit loc => loc
  | .guest loc _ _ => loc

/-- `prepare_translate` up to `exit_loc`: the registers are pushed, the frame is set up, `jmp *%rsi`. -/
def prologue : List Byte :=
  [0x55, 0x53, 0x41, 0x55, 0x41, 0x56, 0x41, 0x57, 0x48, 0x89, 0xe5, 0x48, 0x81, 0xec, 0x00, 0x02, 0x00,
    0x00, 0xff, 0xe6]

/-- The rest of `prepare_translate`. -/
def epilogue : List Byte :=
  [0x48, 0x89, 0xec, 0x41, 0x5f, 0x41, 0x5e, 0x41, 0x5d, 0x5b, 0x5d, 0xc3]

def exitLoc : Nat := prologue.length

def orgSize : Nat := prologue.length + epilogue.length

/-- `struct jit_state` and `should_flush`. `made` is not in the source: it says what the records of
`jumps` are for. -/
structure JitState where
  set : CodeSet := fun _ => []
  buf : Nat → Byte := fun _ => 0
  offset : Nat := 0
  offsetMap : List OffsetEntry := []
  jumps : List Jump := []
  shouldFlush : Bool := false
  made : List JumpFor := []

namespace JitState

/-- `memcpy` into the code buffer. -/
def write (buf : Nat → Byte) (at_ : Nat) (data : List Byte) : Nat → Byte :=
  fun a => if at_ ≤ a then data.getD (a - at_) (buf a) else buf a

def emitBytes (s : JitState) (data : List Byte) : JitState :=
  if codeCacheSize < s.offset + data.length then { s with shouldFlush := true }
  else if s.offsetMap.length = maxBlocks then { s with shouldFlush := true }
  else { s with buf := write s.buf s.offset data, offset := s.offset + data.length }

def word4 (w : Word) : List Byte :=
  [w.setWidth 8, (w >>> 8).setWidth 8, (w >>> 16).setWidth 8, (w >>> 24).setWidth 8]

def emitJumpTargetOffset (s : JitState) (loc target : Nat) : Except JitFault JitState :=
  if s.jumps.length < maxJumps then
    .ok { s with
      jumps := s.jumps ++ [{ offsetLoc := loc, targetOffset := target }]
      made := s.made ++ [.inner loc target] }
  else .error .assert

/-- `emit_jump_target_address`, with what the jump is for. -/
def emitJumpTargetAddress (s : JitState) (pc satp : Word) (for_ : Nat → JumpFor) :
    Except JitFault JitState :=
  if s.jumps.length < maxJumps then
    .ok (emitBytes { s with
      jumps := s.jumps ++ [{ offsetLoc := s.offset, targetPc := pc, targetSatp := satp }]
      made := s.made ++ [for_ s.offset] } (word4 0))
  else .error .assert

def emitJmp (s : JitState) (pc satp : Word) : Except JitFault JitState :=
  emitJumpTargetAddress (s.emitBytes [jccJmp]) pc satp fun loc => .guest loc pc satp

def emitExit (s : JitState) : Except JitFault JitState :=
  emitJumpTargetAddress (s.emitBytes [jccJmp]) targetPcExit 0 .exit

def emitJccOffset (s : JitState) (code : Byte) : JitState :=
  (if code = jccJmp then s.emitBytes [code] else (s.emitBytes [0x0f]).emitBytes [code]).emitBytes (word4 0)

end JitState

/-! ## What a handler emits -/

/-- The variables in which a handler keeps the offset of a jump. -/
inductive LocVar
  | jumpLoc0 | jumpLoc1 | jumpTrap | jumpNormal
  deriving DecidableEq, Repr

/-- What `JUMP_LOC_0`, `JUMP_LOC_1`, `JUMP_TRAP` and `JUMP_NORMAL` add. -/
def LocVar.skip : LocVar → Nat
  | .jumpLoc0 | .jumpTrap => 2
  | .jumpLoc1 | .jumpNormal => 1

inductive Emit
  | bytes (data : List Byte)
  /-- `uint32_t v = state->offset; emit_jcc_offset(state, code);` -/
  | jcc (v : LocVar) (code : Byte)
  /-- `emit_jump_target_offset(state, v + skip, state->offset);` -/
  | target (v : LocVar)
  | jmp (pc satp : Word)
  | exit
  deriving DecidableEq, Repr

abbrev Locs := LocVar → Nat

def Emit.run : Emit → JitState × Locs → Except JitFault (JitState × Locs)
  | .bytes data, (s, l) => .ok (s.emitBytes data, l)
  | .jcc v code, (s, l) => .ok (s.emitJccOffset code, Function.update l v s.offset)
  | .target v, (s, l) => (s.emitJumpTargetOffset (l v + v.skip) s.offset).map (·, l)
  | .jmp pc satp, (s, l) => (s.emitJmp pc satp).map (·, l)
  | .exit, (s, l) => s.emitExit.map (·, l)

/-- The calls of one handler, one after the other. -/
def emitFrom : List Emit → JitState × Locs → Except JitFault JitState
  | [], sl => .ok sl.1
  | op :: ops, sl => op.run sl >>= emitFrom ops

def emitOps (ops : List Emit) (s : JitState) : Except JitFault JitState := emitFrom ops (s, fun _ => 0)

/-- The stretches of straight-line host code in a handler. -/
inductive Stretch
  | body | check | inner | ram | rest
  /-- The PC after the instruction, or the target of a jump, is stored. -/
  | storePc
  /-- The PC of the taken path of a branch is stored. -/
  | storeTaken
  deriving DecidableEq, Repr

/-- The `emit_bytes` calls of each stretch of one node. -/
abbrev NodeCode := Stretch → List (List Byte)

def straight (code : List (List Byte)) : List Emit := code.map .bytes

/-- `branch_history_table_t`. -/
structure JitHistory where
  pc : Fin 16 → Word := fun _ => 0xffffffff
  times : Fin 16 → Word := fun _ => 0
  satp : Fin 16 → Word := fun _ => 0

def JitHistory.maxIdx (bt : JitHistory) : Fin 16 :=
  (List.finRange 16).foldl (fun m i => if bt.times m < bt.times i then i else m) 0

def JitHistory.shouldTranslate (bld : JitBuild) (csrSatp : Word) (bt : JitHistory) (i : Fin 16) : Bool :=
  bt.pc i ≠ 0 && !(bt.times i < 256) && (!bld.system || bt.satp i = csrSatp)

/-- What hangs on a node besides its fields: the PCs of the nodes it is linked to and its table. -/
structure TailLinks where
  untaken : Option Word := none
  taken : Option Word := none
  history : Option JitHistory := none

/-! ## The handlers -/

inductive Cond
  | je | jne | jl | jge | jb | jae
  deriving DecidableEq, Repr

def Cond.code : Cond → Byte
  | .je => 0x84
  | .jne => 0x85
  | .jl => 0x8c
  | .jge => 0x8d
  | .jb => 0x82
  | .jae => 0x83

/-- The form of a handler; the length of a branch is that of the instruction. -/
inductive Shape
  | plain
  | slt (cond : Cond)
  | divRem
  | branch (cond : Cond) (len : Word)
  | fusedBranch
  | jump
  | indirect
  | call
  | load
  | store
  /-- The handler is `assert(NULL)`. -/
  | untranslatable
  deriving DecidableEq, Repr

def Opcode.shape : Opcode → Shape
  | .jal | .cjal | .cj => .jump
  | .jalr | .cjr | .cjalr => .indirect
  | .beq => .branch .je 4
  | .bne => .branch .jne 4
  | .blt => .branch .jl 4
  | .bge => .branch .jge 4
  | .bltu => .branch .jb 4
  | .bgeu => .branch .jae 4
  | .cbeqz => .branch .je 2
  | .cbnez => .branch .jne 2
  | .fuse12 => .fusedBranch
  | .slti | .slt => .slt .jl
  | .sltiu | .sltu => .slt .jb
  | .div | .rem => .divRem
  | .ecall | .ebreak | .cebreak | .fuse6 => .call
  | .lb | .lh | .lw | .lbu | .lhu | .fuse9 | .fuse11 => .load
  | .sb | .sh | .sw | .fuse10 => .store
  | op => if op.translatable then .plain else .untranslatable

section Handlers

variable (bld : JitBuild) (csrSatp : Word) (code : NodeCode) (lk : TailLinks) (ir : Insn)

/-- `emit_jmp` where the node is linked. -/
def jmpIf (link : Option Word) (pc : Word) : List Emit :=
  if link.isSome then [.jmp pc csrSatp] else []

def genSlt (cond : Cond) : List Emit :=
  straight (code .body) ++ .jcc .jumpLoc0 cond.code :: straight (code .inner) ++ [.target .jumpLoc0]

/-- `div` and `rem`: the overflow check of `muldivmod`. -/
def genDivRem : List Emit := genSlt code .jne ++ straight (code .rest)

/-- `EMIT_BRANCH_EPILOGUE` after the compare and the conditional jump. -/
def genBranch (cond : Cond) (next taken : Word) : List Emit :=
  straight (code .body) ++ .jcc .jumpLoc0 cond.code :: jmpIf csrSatp lk.untaken next ++
    straight (code .storePc) ++ .exit :: .target .jumpLoc0 :: jmpIf csrSatp lk.taken taken ++
    straight (code .storeTaken) ++ [.exit]

/-- `jal`, `cjal` and `cj`. These jump whether or not the node is linked. -/
def genJump (pc : Word) : List Emit :=
  straight (code .body) ++ .jmp pc csrSatp :: straight (code .storePc) ++ [.exit]

def parseBranchHistoryTable (bt : JitHistory) : List Emit :=
  let i := bt.maxIdx
  if bt.shouldTranslate bld csrSatp i then
    straight (code .check) ++
      [.jcc .jumpLoc0 Cond.jne.code, .jmp (bt.pc i) (if bld.system then bt.satp i else 0), .target .jumpLoc0]
  else []

/-- `jalr`, `cjr` and `cjalr`. -/
def genIndirect : Except JitFault (List Emit) :=
  match lk.history with
  | none => .error .null
  | some bt => .ok (straight (code .body) ++ parseBranchHistoryTable bld csrSatp code bt ++
      straight (code .storePc) ++ [.exit])

/-- `ecall`, `ebreak`, `cebreak` and `fuse6`. -/
def genCall : List Emit := straight (code .body) ++ [.exit]

/-- `GEN_LOAD`, `fuse9` and `fuse11` in a `SYSTEM_MMIO` build. -/
def genLoad : List Emit :=
  if bld.mmio then
    straight (code .body) ++ .jcc .jumpTrap Cond.jne.code :: straight (code .check) ++
      .jcc .jumpLoc0 Cond.je.code :: straight (code .inner) ++ .jcc .jumpLoc1 jccJmp :: .target .jumpLoc0 ::
      straight (code .ram) ++ .target .jumpLoc1 :: straight (code .rest) ++
      [.jcc .jumpNormal jccJmp, .target .jumpTrap, .exit, .target .jumpNormal]
  else straight (code .body)

def genStore : List Emit :=
  if bld.mmio then
    straight (code .body) ++ .jcc .jumpTrap Cond.jne.code :: straight (code .check) ++
      .jcc .jumpLoc0 Cond.je.code :: straight (code .ram) ++
      [.target .jumpLoc0, .jcc .jumpNormal jccJmp, .target .jumpTrap, .exit, .target .jumpNormal]
  else straight (code .body)

def dispatch : Except JitFault (List Emit) :=
  match ir.opcode.shape with
  | .plain => .ok (straight (code .body))
  | .slt cond => .ok (genSlt code cond)
  | .divRem => .ok (genDivRem code)
  | .branch cond len => .ok (genBranch csrSatp code lk cond (ir.pc + len) (ir.pc + ir.imm))
  | .fusedBranch => .ok (genBranch csrSatp code lk .jne (ir.pc + 8) (ir.pc + 4 + ir.imm2))
  | .jump => .ok (genJump csrSatp code (ir.pc + ir.imm))
  | .indirect => genIndirect bld csrSatp code lk
  | .call => .ok (genCall code)
  | .load => .ok (genLoad bld code)
  | .store => .ok (genStore bld code)
  | .untranslatable => .error .assert

inductive Handled : List Emit → Prop
  | plain : Handled (straight (code .body))
  | slt (cond : Cond) : Handled (genSlt code cond)
  | divRem : Handled (genDivRem code)
  | branch (cond : Cond) (next taken : Word) : Handled (genBranch csrSatp code lk cond next taken)
  | jump (pc : Word) : Handled (genJump csrSatp code pc)
  | indirect {ops : List Emit} (h : genIndirect bld csrSatp code lk = .ok ops) : Handled ops
  | call : Handled (genCall code)
  | load : Handled (genLoad bld code)
  | store : Handled (genStore bld code)

variable {bld csrSatp code lk ir} in
theorem dispatch_handled {ops : List Emit} (h : dispatch bld csrSatp code lk ir = .ok ops) :
    Handled bld csrSatp code lk ops := by
  unfold dispatch at h
  cases hshape : ir.opcode.shape with
  | plain => rw [hshape] at h; cases h; exact .plain
  | slt cond => rw [hshape] at h; cases h; exact .slt cond
  | divRem => rw [hshape] at h; cases h; exact .divRem
  | branch cond len => rw [hshape] at h; cases h; exact .branch cond _ _
  | fusedBranch => rw [hshape] at h; cases h; exact .branch .jne _ _
  | jump => rw [hshape] at h; cases h; exact .jump _
  | indirect => rw [hshape] at h; exact .indirect h
  | call => rw [hshape] at h; cases h; exact .call
  | load => rw [hshape] at h; cases h; exact .load
  | store => rw [hshape] at h; cases h; exact .store
  | untranslatable => rw [hshape] at h; cases h

end Handlers

/-! ## Blocks -/

/-- `block_t`, with what `ir_tail` is linked to. -/
structure JitBlock where
  pcStart : Word
  pcEnd : Word := 0
  satp : Word := 0
  irs : List Insn := []
  pageTerminated : Bool := false
  translatable : Bool := true
  invalidated : Bool := false
  tail : TailLinks := {}

/-- Everything that one call of `jit_translate` reads. `code b i` is the host code of node `i` of `b`;
past the last node it is that of the tail of a page-terminated block. -/
structure JitCall where
  bld : JitBuild := {}
  csrSatp : Word := 0
  /-- `cache_get(rv->block_cache, pc, false)`. -/
  cacheGet : Word → Option JitBlock := fun _ => none
  code : JitBlock → Nat → NodeCode := fun _ _ _ => []

namespace JitCall

variable (c : JitCall)

def linksAt (b : JitBlock) (i : Nat) : TailLinks := if i + 1 = b.irs.length then b.tail else {}

def translateLoop (b : JitBlock) : Nat → List Insn → JitState → Except JitFault JitState
  | _, [], s => .ok s
  | i, ir :: irs, s =>
    if s.shouldFlush then .ok s
    else do
      let ops ← dispatch c.bld c.csrSatp (c.code b i) (linksAt b i) ir
      let s ← emitOps ops s
      translateLoop b (i + 1) irs s

def pageTail (b : JitBlock) : List Emit :=
  let code := c.code b b.irs.length
  straight (code .body) ++ jmpIf c.csrSatp b.tail.taken b.pcEnd ++ straight (code .storePc) ++ [.exit]

def translate (b : JitBlock) (s : JitState) : Except JitFault JitState := do
  let s ← c.translateLoop b 0 b.irs s
  if b.pageTerminated && !s.shouldFlush then emitOps (c.pageTail b) s else .ok s

def offsetMapInsert (b : JitBlock) (s : JitState) : Except JitFault JitState :=
  if s.offsetMap.length < maxBlocks then
    .ok { s with offsetMap := s.offsetMap ++ [⟨b.pcStart, s.offset, b.satp⟩] }
  else .error .assert

/-- Whether `translate_chained_block` follows a link to `b`. -/
def follows (b : JitBlock) : Bool :=
  b.translatable && (!c.bld.system || (b.satp = c.csrSatp && !b.invalidated))

/-- One link of `translate_chained_block`; `rec` is the recursive call. The check of the set is made
with the PC alone. A missing block is read where the link `must` be there. -/
def followLink (rec : JitBlock → JitState → Except JitFault JitState) (must : Bool) (link : Option Word)
    (s : JitState) : Except JitFault JitState :=
  match link with
  | none => .ok s
  | some pc => do
    if ← setHas c.bld s.set (pc.setWidth 64) then .ok s
    else match c.cacheGet pc with
      | none => if must then .error .null else .ok s
      | some b => if c.follows b then rec b s else .ok s

/-- The target that the branch history table of the tail of `b` proposes. -/
def historyTarget (b : JitBlock) : Option Word :=
  match b.tail.history with
  | none => none
  | some bt => if bt.shouldTranslate c.bld c.csrSatp bt.maxIdx then some (bt.pc bt.maxIdx) else none

/-- `translate_chained_block`. A nested call has one more block in the offset map. -/
def translateChainedBlock : Nat → JitBlock → JitState → Except JitFault JitState
  | 0, _, _ => .error .outOfFuel
  | n + 1, b, s => do
    let key := rvHashKey c.bld b.satp b.pcStart
    if ← setHas c.bld s.set key then .ok s
    else if s.offsetMap.length = maxBlocks then .ok s
    else
      let (set, added) ← setAdd c.bld s.set key
      if !added then .error .assert
      else
        let s ← offsetMapInsert b { s with set }
        let s ← c.translate b s
        if s.shouldFlush then .ok s
        else
          let s ← c.followLink (translateChainedBlock n) true b.tail.untaken s
          let s ← c.followLink (translateChainedBlock n) true b.tail.taken s
          c.followLink (translateChainedBlock n) false (c.historyTarget b) s

inductive Followed (rec : JitBlock → JitState → Except JitFault JitState) (must : Bool) (s s' : JitState) :
    Option Word → Prop
  | none (h : s' = s) : Followed rec must s s' none
  | old {pc : Word} (hhas : setHas c.bld s.set (pc.setWidth 64) = .ok true) (h : s' = s) :
      Followed rec must s s' (some pc)
  | missing {pc : Word} (hhas : setHas c.bld s.set (pc.setWidth 64) = .ok false)
      (hget : c.cacheGet pc = Option.none) (hmust : must = false) (h : s' = s) : Followed rec must s s' (some pc)
  | skipped {pc : Word} {b : JitBlock} (hhas : setHas c.bld s.set (pc.setWidth 64) = .ok false)
      (hget : c.cacheGet pc = some b) (hf : c.follows b = false) (h : s' = s) : Followed rec must s s' (some pc)
  | followed {pc : Word} {b : JitBlock} (hhas : setHas c.bld s.set (pc.setWidth 64) = .ok false)
      (hget : c.cacheGet pc = some b) (hf : c.follows b = true) (h : rec b s = .ok s') :
      Followed rec must s s' (some pc)

variable {c} in
theorem followLink_ok {rec : JitBlock → JitState → Except JitFault JitState} {must : Bool}
    {link : Option Word} {s s' : JitState} (h : c.followLink rec must link s = .ok s') :
    c.Followed rec must s s' link := by
  cases link with
  | none =>
    cases h
    exact .none rfl
  | some pc =>
    obtain ⟨has, hhas, h⟩ := bind_ok h
    cases has with
    | true =>
      cases h
      exact .old hhas rfl
    | false =>
      cases hget : c.cacheGet pc with
      | none =>
        rw [hget] at h
        cases must with
        | true => cases h
        | false =>
          cases h
          exact .missing hhas hget rfl rfl
      | some b =>
        rw [hget] at h
        cases hf : c.follows b with
        | true =>
          simp only [hf, if_true] at h
          exact .followed hhas hget hf h
        | false =>
          simp only [hf] at h
          cases h
          exact .skipped hhas hget hf rfl

/-- What a call of `translate_chained_block` can do; `rec` is the recursive call. -/
inductive Chained (rec : JitBlock → JitState → Except JitFault JitState) (b : JitBlock) (s s' : JitState) : Prop
  | old (hhas : setHas c.bld s.set (rvHashKey c.bld b.satp b.pcStart) = .ok true) (h : s' = s)
  | full (hhas : setHas c.bld s.set (rvHashKey c.bld b.satp b.pcStart) = .ok false)
      (hn : s.offsetMap.length = maxBlocks) (h : s' = s)
  | new {t : CodeSet} {s₁ s₂ : JitState}
      (hhas : setHas c.bld s.set (rvHashKey c.bld b.satp b.pcStart) = .ok false)
      (hadd : setAdd c.bld s.set (rvHashKey c.bld b.satp b.pcStart) = .ok (t, true))
      (hn : s.offsetMap.length < maxBlocks)
      (hins : s₁ = { s with set := t, offsetMap := s.offsetMap ++ [⟨b.pcStart, s.offset, b.satp⟩] })
      (htr : c.translate b s₁ = .ok s₂)
      (h : (s₂.shouldFlush = true ∧ s' = s₂) ∨ (s₂.shouldFlush = false ∧ ∃ s₃ s₄,
        c.followLink rec true b.tail.untaken s₂ = .ok s₃ ∧ c.followLink rec true b.tail.taken s₃ = .ok s₄ ∧
        c.followLink rec false (c.historyTarget b) s₄ = .ok s'))

variable {c} in
theorem translateChainedBlock_ok {n : Nat} {b : JitBlock} {s s' : JitState}
    (h : c.translateChainedBlock (n + 1) b s = .ok s') : c.Chained (c.translateChainedBlock n) b s s' := by
  unfold translateChainedBlock at h
  obtain ⟨has, hhas, h⟩ := bind_ok h
  cases has with
  | true =>
    cases h
    exact .old hhas rfl
  | false =>
    simp only [Bool.false_eq_true, if_false] at h
    split_ifs at h with hn
    · cases h
      exact .full hhas hn rfl
    · obtain ⟨⟨t, added⟩, hadd, h⟩ := bind_ok h
      cases added with
      | false => cases h
      | true =>
        obtain ⟨s₁, hins, hrest⟩ := bind_ok h
        obtain ⟨s₂, htr, hend⟩ := bind_ok hrest
        unfold offsetMapInsert at hins
        split_ifs at hins with hlt
        refine .new hhas hadd hlt (Except.ok.inj hins).symm htr ?_
        cases hf : s₂.shouldFlush with
        | true =>
          simp only [hf, if_true] at hend
          cases hend
          exact .inl ⟨rfl, rfl⟩
        | false =>
          simp only [hf, Bool.false_eq_true, if_false] at hend
          obtain ⟨s₃, h₃, hend⟩ := bind_ok hend
          obtain ⟨s₄, h₄, hend⟩ := bind_ok hend
          exact .inr ⟨rfl, s₃, s₄, h₃, h₄, hend⟩

/-- A property of the state that emitting the code of a node and inserting a block keep. -/
structure Preserves (Q : JitState → Prop) : Prop where
  node : ∀ {b : JitBlock} {i : Nat} {ir : Insn} {ops : List Emit} {s s' : JitState},
    dispatch c.bld c.csrSatp (c.code b i) (linksAt b i) ir = .ok ops → Q s → emitOps ops s = .ok s' → Q s'
  page : ∀ {b : JitBlock} {s s' : JitState}, Q s → emitOps (c.pageTail b) s = .ok s' → Q s'
  insert : ∀ {b : JitBlock} {s : JitState} {t : CodeSet},
    setHas c.bld s.set (rvHashKey c.bld b.satp b.pcStart) = .ok false →
    setAdd c.bld s.set (rvHashKey c.bld b.satp b.pcStart) = .ok (t, true) → s.offsetMap.length < maxBlocks →
    Q s → Q { s with set := t, offsetMap := s.offsetMap ++ [⟨b.pcStart, s.offset, b.satp⟩] }

namespace Preserves

variable {c} {Q : JitState → Prop}

theorem translateLoop (hQ : c.Preserves Q) {b : JitBlock} {i : Nat} {irs : List Insn} {s s' : JitState} (h : Q s)
    (hs : c.translateLoop b i irs s = .ok s') : Q s' := by
  induction irs generalizing i s with
  | nil =>
    cases hs
    exact h
  | cons ir irs ih =>
    unfold JitCall.translateLoop at hs
    split_ifs at hs with hf
    · cases hs
      exact h
    · obtain ⟨ops, hops, hs⟩ := bind_ok hs
      obtain ⟨t, ht, hs⟩ := bind_ok hs
      exact ih (hQ.node hops h ht) hs

theorem translate (hQ : c.Preserves Q) {b : JitBlock} {s s' : JitState} (h : Q s)
    (hs : c.translate b s = .ok s') : Q s' := by
  obtain ⟨t, ht, hs⟩ := bind_ok hs
  have hloop := hQ.translateLoop h ht
  split_ifs at hs
  · exact hQ.page hloop hs
  · cases hs
    exact hloop

theorem followLink {rec : JitBlock → JitState → Except JitFault JitState}
    (hrec : ∀ {b s s'}, Q s → rec b s = .ok s' → Q s') {must : Bool} {link : Option Word} {s s' : JitState}
    (h : Q s) (hs : c.followLink rec must link s = .ok s') : Q s' := by
  cases followLink_ok hs with
  | none heq | old _ heq | missing _ _ _ heq | skipped _ _ _ heq => exact heq ▸ h
  | followed _ _ _ hb => exact hrec h hb

/-- **What the steps keep, `translate_chained_block` keeps.** -/
theorem translateChainedBlock (hQ : c.Preserves Q) {n : Nat} {b : JitBlock} {s s' : JitState} (h : Q s)
    (hs : c.translateChainedBlock n b s = .ok s') : Q s' := by
  induction n generalizing b s s' with
  | zero => cases hs
  | succ n ih =>
    cases translateChainedBlock_ok hs with
    | old _ heq | full _ _ heq => exact heq ▸ h
    | @new t s₁ s₂ hhas hadd hn hins htr hend =>
      have h₁ : Q s₁ := by
        subst hins
        exact hQ.insert hhas hadd hn h
      have h₂ := hQ.translate h₁ htr
      rcases hend with ⟨-, rfl⟩ | ⟨-, s₃, s₄, hs₃, hs₄, hend⟩
      · exact h₂
      · exact followLink ih (followLink ih (followLink ih h₂ hs₃) hs₄) hend

end Preserves

/-- One pass of the loop of `jit_translate`, from `restart` to the test of `should_flush`. -/
def jitPass (b : JitBlock) (s : JitState) : Except JitFault JitState :=
  c.translateChainedBlock (maxBlocks + 1) b { s with jumps := [], made := [] }

end JitCall

def codeCacheFlush (s : JitState) : JitState :=
  { s with shouldFlush := false, offset := orgSize, offsetMap := [], set := fun _ => [] }

def jitStateInit : JitState := { buf := JitState.write (fun _ => 0) 0 (prologue ++ epilogue), offset := orgSize }

/-! ## Patching the jumps -/

/-- Whether an entry of the offset map is for `pc` and `satp`. -/
def OffsetEntry.isFor (bld : JitBuild) (pc satp : Word) (e : OffsetEntry) : Bool :=
  e.pc = pc && (!bld.system || e.satp = satp)

/-- `target_loc` in `resolve_jumps`. `retpoline_loc` is never written. -/
def Jump.targetLoc (bld : JitBuild) (retpolineLoc : Word) (map : List OffsetEntry) (j : Jump) : Word :=
  if j.targetOffset ≠ 0 then .ofNat 32 j.targetOffset
  else if j.targetPc = targetPcExit then .ofNat 32 exitLoc
  else if j.targetPc = targetPcRetpoline then retpolineLoc
  else match map.find? (OffsetEntry.isFor bld j.targetPc j.targetSatp) with
    | some e => .ofNat 32 e.offset
    | none => .ofNat 32 (j.offsetLoc + 4)

/-- One round of the loop of `resolve_jumps`. -/
def Jump.patch (bld : JitBuild) (retpolineLoc : Word) (map : List OffsetEntry) (buf : Nat → Byte)
    (j : Jump) : Nat → Byte :=
  JitState.write buf j.offsetLoc
    (JitState.word4 (j.targetLoc bld retpolineLoc map - .ofNat 32 (j.offsetLoc + 4)))

def resolveJumps (bld : JitBuild) (retpolineLoc : Word) (s : JitState) : JitState :=
  { s with buf := s.jumps.foldl (Jump.patch bld retpolineLoc s.offsetMap) s.buf }

/-! ## The whole call -/

namespace JitCall

variable (c : JitCall) (retpolineLoc : Word)

/-- `jit_translate` from `restart` on, with at most `n` passes. -/
def jitRestart : Nat → JitBlock → JitState → Except JitFault JitState
  | 0, _, _ => .error .outOfFuel
  | n + 1, b, s => do
    let s ← c.jitPass b s
    if s.shouldFlush then jitRestart n b (codeCacheFlush s) else .ok (resolveJumps c.bld retpolineLoc s)

/-- `jit_translate`. A block that is in the set has its entry in the offset map. -/
def jitTranslate (n : Nat) (b : JitBlock) (s : JitState) : Except JitFault JitState := do
  if ← setHas c.bld s.set (rvHashKey c.bld b.satp b.pcStart) then
    match s.offsetMap.find? (OffsetEntry.isFor c.bld b.pcStart b.satp) with
    | some _ => .ok s
    | none => .error .assert
  else c.jitRestart retpolineLoc n b s

end JitCall

end Rv32emu
