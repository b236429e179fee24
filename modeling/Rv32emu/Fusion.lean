import Rv32emu.Template

/-!
# Macro-operation fusion

The handlers `do_fuse1` to `do_fuse12`, the dispatch table `ir->impl`, and the rewriting pass
`match_pattern` of `emulate.c`.

* `fuseSeq` : the loop that `do_fuse1`, `do_fuse3`, `do_fuse4`, `do_fuse5` and `do_fuse7` share;
* `impl` : the handler of any node, fused or not;
* `matchAt` : the `switch` of `match_pattern` at one node, with the number of successors it removes;
* `matchPattern` : the scan over the shrinking list;
* `runIr` : an IR list that nothing is linked to, run from its head to its end.
-/

namespace Rv32emu

/-! ## Handlers -/

def fuseNextOrStop (noNext : Bool) (cycle : BitVec 64) (pc : Word) (s : Cpu) : Ctl :=
  if noNext then .ret true (s.save cycle pc) else .next cycle pc s

/-- The check of `RV_EXC_MISALIGN_HANDLER(3, type, false, 1)`; the caller of `checkAligned` saves
`PC` and cycle count and raises the trap. -/
def checkAligned (env : Env) (cause : Cause) (addr : Word) (s : Cpu) : Except (Trap × Cpu) Cpu :=
  if misaligned env 3 addr then .error (⟨cause, addr, .retFalse⟩, { s with compressed := false })
  else .ok s

abbrev FuseBody := OpcodeFuse → Cpu → Except (Trap × Cpu) Cpu

/-- The loop over `ir->fuse[0..imm2)`. -/
def fuseSeq (body : FuseBody) (ir : Insn) (noNext : Bool) (cycle : BitVec 64) (pc : Word) (s : Cpu) :
    Ctl :=
  let cycle := cycle + ir.imm2.signExtend 64
  match (ir.fuse.take ir.imm2.toNat).foldlM (fun s f => body f s) s with
  | .ok s => fuseNextOrStop noNext cycle (pc + ir.imm2 * 4) s
  | .error (t, s) => .trap t (s.save cycle pc)

def fuseLui : FuseBody := fun f s => .ok (s.setX f.rd f.imm)

def fuseSw (env : Env) : FuseBody := fun f s => do
  let addr := s.X f.rs1 + f.imm
  let s ← checkAligned env .storeMisaligned addr s
  return s.memWriteW addr (s.X f.rs2)

def fuseLw (env : Env) : FuseBody := fun f s => do
  let addr := s.X f.rs1 + f.imm
  let s ← checkAligned env .loadMisaligned addr s
  return s.setX f.rd (s.memReadW addr)

/-- `fuse_shift_exec`; its `default` is unreachable. -/
def fuseShiftExec : FuseBody := fun f s =>
  match f.opcode with
  | .slli => .ok (s.setX f.rd (s.X f.rs1 <<< (f.imm &&& 0x1f).toNat))
  | .srli => .ok (s.setX f.rd (s.X f.rs1 >>> (f.imm &&& 0x1f).toNat))
  | .srai => .ok (s.setX f.rd ((s.X f.rs1).sshiftRight (f.imm &&& 0x1f).toNat))
  | _ => .ok s

def fuseAddi : FuseBody := fun f s => .ok (s.setX f.rd (s.X f.rs1 + f.imm))

def doFuse1 : Insn → Bool → BitVec 64 → Word → Cpu → Ctl := fuseSeq fuseLui

/-- `lui` and `add`. -/
def doFuse2 (ir : Insn) (noNext : Bool) (cycle : BitVec 64) (pc : Word) (s : Cpu) : Ctl :=
  let s := s.setX ir.rd ir.imm
  let s := s.setX ir.rs2 (s.X ir.rd + s.X ir.rs1)
  fuseNextOrStop noNext (cycle + 2) (pc + 8) s

def doFuse3 (env : Env) : Insn → Bool → BitVec 64 → Word → Cpu → Ctl := fuseSeq (fuseSw env)

def doFuse4 (env : Env) : Insn → Bool → BitVec 64 → Word → Cpu → Ctl := fuseSeq (fuseLw env)

def doFuse5 : Insn → Bool → BitVec 64 → Word → Cpu → Ctl := fuseSeq fuseShiftExec

/-- `li a7, imm` and `ecall`. -/
def doFuse6 (ir : Insn) (cycle : BitVec 64) (pc : Word) (s : Cpu) : Ctl :=
  let s := { s.setX regA7 ir.imm with compressed := false }
  .trap ⟨.ecallM, 0, .syscall⟩ (s.save (cycle + 2) (pc + 4))

def doFuse7 : Insn → Bool → BitVec 64 → Word → Cpu → Ctl := fuseSeq fuseAddi

/-- `lui` and `addi`. -/
def doFuse8 (ir : Insn) (noNext : Bool) (cycle : BitVec 64) (pc : Word) (s : Cpu) : Ctl :=
  fuseNextOrStop noNext (cycle + 2) (pc + 8) (s.setX ir.rd (ir.imm + ir.imm2))

/-- `lui` and `lw`. -/
def doFuse9 (env : Env) (ir : Insn) (noNext : Bool) (cycle : BitVec 64) (pc : Word) (s : Cpu) : Ctl :=
  let cycle := cycle + 2
  let s := s.setX ir.rd ir.imm
  let addr := ir.imm + ir.imm2
  match checkAligned env .loadMisaligned addr s with
  | .error (t, s) => .trap t (s.save cycle pc)
  | .ok s => fuseNextOrStop noNext cycle (pc + 8) (s.setX ir.rs2 (s.memReadW addr))

/-- `lui` and `sw`. -/
def doFuse10 (env : Env) (ir : Insn) (noNext : Bool) (cycle : BitVec 64) (pc : Word) (s : Cpu) : Ctl :=
  let cycle := cycle + 2
  let s := s.setX ir.rd ir.imm
  let addr := ir.imm + ir.imm2
  match checkAligned env .storeMisaligned addr s with
  | .error (t, s) => .trap t (s.save cycle pc)
  | .ok s => fuseNextOrStop noNext cycle (pc + 8) (s.memWriteW addr (s.X ir.rs1))

/-- `lw` and the post-increment of its base. -/
def doFuse11 (env : Env) (ir : Insn) (noNext : Bool) (cycle : BitVec 64) (pc : Word) (s : Cpu) : Ctl :=
  let cycle := cycle + 2
  let addr := s.X ir.rs1 + ir.imm
  match checkAligned env .loadMisaligned addr s with
  | .error (t, s) => .trap t (s.save cycle pc)
  | .ok s =>
    let s := s.setX ir.rd (s.memReadW addr)
    fuseNextOrStop noNext cycle (pc + 8) (s.setX ir.rs1 (s.X ir.rs1 + ir.imm2))

/-- `addi` and `bne rd, x0`. The counter is compared with 0, not with `x0`, and the target is not
checked for alignment. -/
def doFuse12 (ir : Insn) (lk : Links) (cycle : BitVec 64) (pc : Word) (s : Cpu) : Ctl :=
  let cycle := cycle + 2
  let follow (link : Option Ref) (pc : Word) (s : Cpu) : Ctl :=
    match link with
    | some r => .enter r cycle pc { s with lastPc := pc }
    | none => .ret true (s.save cycle pc)
  let s := s.setX ir.rd (s.X ir.rs1 + ir.imm)
  if s.X ir.rd ≠ 0 then follow lk.taken (pc + (4 + ir.imm2)) { s with isBranchTaken := true }
  else follow lk.untaken (pc + 8) { s with isBranchTaken := false }

/-- `ir->impl`, the entry of `dispatch_table` for the opcode. -/
def impl (env : Env) (ir : Insn) (lk : Links) (noNext : Bool) (cycle : BitVec 64) (pc : Word)
    (s : Cpu) : Ctl :=
  match ir.opcode with
  | .fuse1 => doFuse1 ir noNext cycle pc s
  | .fuse2 => doFuse2 ir noNext cycle pc s
  | .fuse3 => doFuse3 env ir noNext cycle pc s
  | .fuse4 => doFuse4 env ir noNext cycle pc s
  | .fuse5 => doFuse5 ir noNext cycle pc s
  | .fuse6 => doFuse6 ir cycle pc s
  | .fuse7 => doFuse7 ir noNext cycle pc s
  | .fuse8 => doFuse8 ir noNext cycle pc s
  | .fuse9 => doFuse9 env ir noNext cycle pc s
  | .fuse10 => doFuse10 env ir noNext cycle pc s
  | .fuse11 => doFuse11 env ir noNext cycle pc s
  | .fuse12 => doFuse12 ir lk cycle pc s
  | _ => doRvop env ir lk noNext cycle pc s

/-! ## The rewriting pass -/

def fuseMaxEntries : Nat := 16

/-- `count_consecutive_insn`, `count_consecutive_shift`: a run that starts at the current node. -/
def countConsecutive (p : Opcode → Bool) (rest : List Insn) : Nat :=
  1 + (rest.takeWhile fun ir => p ir.opcode).length

def isShiftImm : Opcode → Bool
  | .slli | .srli | .srai => true
  | _ => false

/-- `try_fuse_sequence`: the node and the number of successors removed. `alloc pc` says whether
`mpool_alloc` has a slot when the node at `pc` asks for one. -/
def tryFuseSequence (alloc : Word → Bool) (ir : Insn) (rest : List Insn) (count : Nat)
    (op : Opcode) : Insn × Nat :=
  if count ≤ 1 then (ir, 0)
  else if fuseMaxEntries < count then (ir, 0)
  else if alloc ir.pc then
    ({ ir with opcode := op, imm2 := BitVec.ofNat 32 count,
               fuse := ir.toFuse :: (rest.take (count - 1)).map Insn.toFuse }, count - 1)
  else (ir, 0)

/-- The `switch` of `match_pattern` at `ir`, followed by `next :: rest`. -/
def matchAt (alloc : Word → Bool) (ir next : Insn) (rest : List Insn) : Insn × Nat :=
  let seq (p : Opcode → Bool) (op : Opcode) :=
    tryFuseSequence alloc ir (next :: rest) (countConsecutive p (next :: rest)) op
  match ir.opcode with
  | .lui =>
    match next.opcode with
    | .add =>
      if ir.rd = next.rs2 ∨ ir.rd = next.rs1 then
        ({ ir with opcode := .fuse2, rs2 := next.rd,
                   rs1 := if ir.rd = next.rs2 then next.rs1 else next.rs2 }, 1)
      else (ir, 0)
    | .addi =>
      if ir.rd ≠ regZero ∧ ir.rd = next.rs1 ∧ ir.rd = next.rd then
        ({ ir with imm2 := next.imm, opcode := .fuse8 }, 1)
      else (ir, 0)
    | .lw =>
      if ir.rd ≠ regZero ∧ ir.rd = next.rs1 then
        ({ ir with imm2 := next.imm, rs2 := next.rd, opcode := .fuse9 }, 1)
      else (ir, 0)
    | .sw =>
      if ir.rd ≠ regZero ∧ ir.rd = next.rs1 ∧ ir.rd ≠ next.rs2 then
        ({ ir with imm2 := next.imm, rs1 := next.rs2, opcode := .fuse10 }, 1)
      else (ir, 0)
    | .lui => seq (· == .lui) .fuse1
    | _ => (ir, 0)
  | .sw => seq (· == .sw) .fuse3
  | .lw =>
    if next.opcode = .addi ∧ ir.rs1 = next.rs1 ∧ next.rs1 = next.rd ∧ ir.rd ≠ ir.rs1 then
      ({ ir with imm2 := next.imm, opcode := .fuse11 }, 1)
    else seq (· == .lw) .fuse4
  | .slli | .srli | .srai => seq isShiftImm .fuse5
  | .addi =>
    if ir.rd = regA7 ∧ ir.rs1 = regZero ∧ next.opcode = .ecall then ({ ir with opcode := .fuse6 }, 1)
    else if next.opcode = .bne ∧ ir.rd ≠ regZero ∧ ir.rd = next.rs1 ∧ next.rs2 = regZero then
      ({ ir with imm2 := next.imm, opcode := .fuse12 }, 1)
    else seq (· == .addi) .fuse7
  | _ => (ir, 0)

/-- `match_pattern`: the scan stops at the last node of the list. -/
def matchPattern (alloc : Word → Bool) : List Insn → List Insn
  | [] => []
  | [ir] => [ir]
  | ir :: next :: rest =>
    let r := matchAt alloc ir next rest
    r.1 :: matchPattern alloc ((next :: rest).drop r.2)
termination_by irs => irs.length
decreasing_by
  simp only [List.length_drop, List.length_cons]
  omega

/-! ## Running an IR list -/

/-- Go on with `k` if the nodes so far have fallen through. -/
def Ctl.andThen (r : Ctl) (k : BitVec 64 → Word → Cpu → Ctl) : Ctl :=
  match r with
  | .next cycle pc s => k cycle pc s
  | r => r

/-- The nodes of a block whose links are all null, from the head on. -/
def runIr (env : Env) : List Insn → BitVec 64 → Word → Cpu → Ctl
  | [], cycle, pc, s => .ret true (s.save cycle pc)
  | ir :: irs, cycle, pc, s => (impl env ir {} irs.isEmpty cycle pc s).andThen (runIr env irs)

end Rv32emu
