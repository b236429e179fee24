import Rv32emu.Fusion
import Rv32emu.Mmu

/-!
# Lazy fusion of loads and stores

In a `SYSTEM_MMIO` build `match_pattern` does not fuse a run of `lw` or `sw`, which may address a
device. It registers the run as a candidate, and `try_lazy_fusion` fuses it when a later visit to the
block finds every address in RAM.

* `LazyCandidate`, `Seg` : the IR list of a block, cut at its candidates;
* `lazyFusionSafeBaseRegs`, `matchPatternMmio` : the pass of a `SYSTEM_MMIO` build;
* `tryLazyFusion`.
-/

namespace Rv32emu

/-! ## Candidates -/

/-- A pending `lazy_fusion_candidate_t` with the nodes it was registered for. One that has failed or
has been fused is no candidate any more. -/
structure LazyCandidate where
  isLoad : Bool
  irs : List Insn
  /-- The `uint8_t` the length of the run is stored in. -/
  count : BitVec 8
  ops : ∀ ir ∈ irs, ir.opcode = if isLoad then .lw else .sw

/-- The run of `lw` or `sw` at the head of a list. -/
def LazyCandidate.ofRun (isLoad : Bool) (irs : List Insn) : LazyCandidate where
  isLoad := isLoad
  irs := irs.takeWhile fun ir => ir.opcode == if isLoad then .lw else .sw
  count := BitVec.ofNat 8 (irs.takeWhile fun ir => ir.opcode == if isLoad then .lw else .sw).length
  ops ir hir := by simpa using List.mem_takeWhile_imp hir

inductive Seg
  | node (ir : Insn)
  | candidate (c : LazyCandidate)

def Seg.irs : Seg → List Insn
  | .node ir => [ir]
  | .candidate c => c.irs

/-! ## Registering -/

def maxLazyCandidates : Nat := 8

/-- `1u << r`, nothing for `x0`. -/
def regBit (r : Reg) : Word := if r ≠ 0 then (1 : Word) <<< r.toNat else 0

/-- The registers some nodes write, by their `rd`. -/
def rdMask (irs : List Insn) : Word := irs.foldl (fun m ir => m ||| regBit ir.rd) 0

def argRegMask : Word := 0x3fc00

/-- The check for pointer chasing inside a run of loads: the base of a node has been loaded before. -/
def chasesPointer : Word → List Insn → Bool
  | _, [] => false
  | written, ir :: irs =>
    (ir.rs1 ≠ 0 ∧ written &&& (1 : Word) <<< ir.rs1.toNat ≠ 0) ||
      chasesPointer (written ||| regBit ir.rd) irs

def lazyFusionSafeBaseRegs (modifiedBefore : Word) (c : LazyCandidate) : Bool :=
  let rs1Mask := c.irs.foldl (fun m ir => m ||| (1 : Word) <<< ir.rs1.toNat) 0 &&& ~~~1
  if rs1Mask = 0 then true
  else if rs1Mask &&& argRegMask ≠ 0 then false
  else if rs1Mask &&& modifiedBefore ≠ 0 then false
  else !(c.isLoad && chasesPointer 0 c.irs)

/-- The registers recorded as modified when a run is registered; of a run of `sw` only the last node
is looked at. -/
def LazyCandidate.recordedRegs (c : LazyCandidate) : Word :=
  if c.isLoad then rdMask c.irs else regBit (c.irs.getLastD {}).rd

/-- The run `match_pattern` registers at the head of `irs`, if it does. -/
def lazyRun (registered : Nat) (modified : Word) (irs : List Insn) : Option LazyCandidate :=
  let try_ (isLoad : Bool) : Option LazyCandidate :=
    let c := LazyCandidate.ofRun isLoad irs
    if 1 < c.irs.length ∧ registered < maxLazyCandidates ∧ lazyFusionSafeBaseRegs modified c then some c
    else none
  match irs with
  | ir :: next :: _ =>
    match ir.opcode with
    | .sw => try_ false
    | .lw =>
      if next.opcode = .addi ∧ ir.rs1 = next.rs1 ∧ next.rs1 = next.rd ∧ ir.rd ≠ ir.rs1 then none
      else try_ true
    | _ => none
  | _ => none

/-- The `switch` at a node that is not registered: as in `matchAt`, except that runs of `lw` and `sw`
are left alone. -/
def matchAtMmio (alloc : Word → Bool) (ir next : Insn) (rest : List Insn) : Insn × Nat :=
  match ir.opcode with
  | .sw => (ir, 0)
  | .lw =>
    if next.opcode = .addi ∧ ir.rs1 = next.rs1 ∧ next.rs1 = next.rd ∧ ir.rd ≠ ir.rs1 then
      matchAt alloc ir next rest
    else (ir, 0)
  | _ => matchAt alloc ir next rest

/-- The registers recorded as modified at a node besides its own `rd`. -/
def recordedRegs (ir next : Insn) (rest : List Insn) : Word :=
  let seq (p : Opcode → Bool) : Word :=
    rdMask ((ir :: next :: rest).take (countConsecutive p (next :: rest)))
  match ir.opcode with
  | .lui =>
    match next.opcode with
    | .add => if ir.rd = next.rs2 ∨ ir.rd = next.rs1 then regBit next.rd else 0
    | .lw => if ir.rd ≠ regZero ∧ ir.rd = next.rs1 then regBit next.rd else 0
    | .lui => seq (· == .lui)
    | _ => 0
  | .lw =>
    if next.opcode = .addi ∧ ir.rs1 = next.rs1 ∧ next.rs1 = next.rd ∧ ir.rd ≠ ir.rs1 then regBit ir.rs1
    else 0
  | .slli | .srli | .srai => seq isShiftImm
  | .addi =>
    if ir.rd = regA7 ∧ ir.rs1 = regZero ∧ next.opcode = .ecall then 0
    else if next.opcode = .bne ∧ ir.rd ≠ regZero ∧ ir.rd = next.rs1 ∧ next.rs2 = regZero then 0
    else seq (· == .addi)
  | _ => 0

/-- `match_pattern` of a `SYSTEM_MMIO` build, with the number of candidates registered so far and
`modified_regs`. -/
def matchPatternMmio (alloc : Word → Bool) (registered : Nat) (modified : Word) :
    List Insn → List Seg
  | [] => []
  | [ir] => [.node ir]
  | ir :: next :: rest =>
    match lazyRun registered modified (ir :: next :: rest) with
    | some c =>
      .candidate c :: matchPatternMmio alloc (registered + 1) (modified ||| c.recordedRegs)
        ((next :: rest).drop (c.irs.length - 1))
    | none =>
      let r := matchAtMmio alloc ir next rest
      .node r.1 :: matchPatternMmio alloc registered
        (modified ||| recordedRegs ir next rest ||| regBit r.1.rd) ((next :: rest).drop r.2)
termination_by irs => irs.length
decreasing_by
  all_goals
    simp only [List.length_drop, List.length_cons]
    omega

/-! ## Fusing -/

/-- One candidate of `try_lazy_fusion`: it fails if an address is outside RAM, and stays a candidate
if it cannot be fused now. -/
def Seg.tryFuse (env : SysEnv) (alloc : Word → Bool) (x : Reg → Word) : Seg → List Seg
  | .node ir => [.node ir]
  | .candidate c =>
    let count := c.count.toNat
    if (c.irs.take count).all fun ir => env.ramContains (x ir.rs1 + ir.imm) 4 then
      match c.irs with
      | [] => [.candidate c]
      | ir :: rest =>
        let r := tryFuseSequence alloc ir rest count (if c.isLoad then .fuse4 else .fuse3)
        if r.2 = 0 then [.candidate c] else .node r.1 :: (rest.drop r.2).map .node
    else c.irs.map .node

/-- `try_lazy_fusion`. With the MMU on, the candidates are dropped. -/
def tryLazyFusion (env : SysEnv) (alloc : Word → Bool) (s : Cpu) (segs : List Seg) : List Seg :=
  if s.csr.satp ≠ 0 then segs.flatMap fun seg => seg.irs.map .node
  else segs.flatMap (Seg.tryFuse env alloc s.X)

end Rv32emu
