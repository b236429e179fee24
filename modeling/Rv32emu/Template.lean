import Rv32emu.Softfp
import Rv32emu.Trap

/-!
# The instruction handlers of `rv32_template.c`

The body of every `RVOP(inst, code)` is a row of `rvop : Opcode → Code`; `Code` lists the shapes
the bodies have, and `Code.exec` is what a body of each shape does. The macro around the body
(cycle count, `nextop`, `end_op`, chaining through `branch_taken`) is `doRvop`.

* `Links` : `branch_taken` and `branch_untaken` of a node;
* `Flow` : how a body leaves the macro; `Ctl` : how a handler ends;
* `Code`, `rvop`, `Code.exec`, `doRvop`.
-/

namespace Rv32emu

abbrev Ref := Nat

structure Links where
  taken : Option Ref := none
  untaken : Option Ref := none
  deriving DecidableEq, Repr

/-- How the code of an `RVOP` ends. -/
inductive Flow
  /-- Falls through, or jumps, to `nextop`. -/
  | next (s : Cpu)
  /-- `goto end_op` with the updated `PC`. -/
  | endOp (pc : Word) (s : Cpu)
  /-- `LOOKUP_OR_UPDATE_BRANCH_HISTORY_TABLE(); goto end_op`. -/
  | lookup (pc : Word) (s : Cpu)
  /-- A tail call through a link, `last_pc` updated. -/
  | chain (r : Ref) (pc : Word) (s : Cpu)
  | ret (ok : Bool) (s : Cpu)
  /-- `rv->PC` and `csr_cycle` are saved and the trap is about to be raised. -/
  | trap (t : Trap) (s : Cpu)

inductive Ctl
  /-- Tail call of `ir->next`. -/
  | next (cycle : BitVec 64) (pc : Word) (s : Cpu)
  /-- Tail call of the node a link names. -/
  | enter (r : Ref) (cycle : BitVec 64) (pc : Word) (s : Cpu)
  /-- The branch history table is consulted; a miss in table and block map saves and returns. -/
  | lookup (cycle : BitVec 64) (pc : Word) (s : Cpu)
  | ret (ok : Bool) (s : Cpu)
  | trap (t : Trap) (s : Cpu)

/-! ## Shapes of the handler bodies -/

/-- The shapes of the code blocks in `rv32_template.c`. -/
inductive Code
  /-- `rv->X[dst] = val`, from the registers and the `PC`. -/
  | set (dst : Insn → Reg) (val : Insn → (Reg → Word) → Word → Word)
  | skip
  /-- `X[rd] = read(addr)` after the alignment check. -/
  | load (compress : Bool) (mask : Word) (addr : Insn → (Reg → Word) → Word)
      (read : Cpu → Word → Word)
  /-- `write(addr, X[rs2])` after the alignment check. -/
  | store (compress : Bool) (mask : Word) (addr : Insn → (Reg → Word) → Word)
      (write : Cpu → Word → Word → Cpu)
  | lrw
  | scw
  /-- Read-modify-write of a word with `res = f value1 value2`. -/
  | amo (f : Word → Word → Word)
  | flw (addr : Insn → (Reg → Word) → Word)
  | fsw (addr : Insn → (Reg → Word) → Word)
  /-- A floating-point operation without an integer result. -/
  | fpu (f : SoftFloat → Insn → (Reg → Word) → Fpu → Fpu)
  /-- A floating-point operation with an integer result, stored if `rd` is not `x0`. -/
  | fpuX (f : SoftFloat → Insn → Fpu → Word × Fpu)
  | csr (f : Env → Insn → (Reg → Word) → BitVec 64 → Cpu → Word × Cpu)
  /-- `BRANCH_FUNC`, with the condition under which the branch is not taken. -/
  | branch (untaken : Word → Word → Bool)
  /-- `c.beqz` and `c.bnez`, which chain by themselves. -/
  | cbranch (untaken : Word → Bool)
  | jal
  | jalr
  | cjal
  | cj
  | cjr
  | cjalr
  /-- `PC += 4; goto end_op`. -/
  | leave
  | fencei
  | ecall
  | ebreak (compress : Bool)
  | mret
  | fail

/-- `addr & mask` with misaligned accesses disallowed. -/
def misaligned (env : Env) (mask addr : Word) : Bool := !env.allowMisalign && addr &&& mask ≠ 0

/-- The trap of `RV_EXC_MISALIGN_HANDLER`. -/
def misalignTrap (cause : Cause) (tval : Word) (compress : Bool) (cycle : BitVec 64) (pc : Word)
    (s : Cpu) : Flow :=
  .trap ⟨cause, tval, .retFalse⟩ ({ s with compressed := compress }.save cycle pc)

/-- `insn_is_misaligned` where the build has no `EXT_C`. -/
def insnMisaligned (env : Env) (pc : Word) : Bool := !env.extC && pc &&& 3 ≠ 0

/-- `if (rd) rv->X[rd] = v`. -/
def Cpu.setXNz (s : Cpu) (rd : Reg) (v : Word) : Cpu := if rd ≠ 0 then s.setX rd v else s

/-- Follow `branch_taken` if it is set. -/
def chainOr (link : Option Ref) (pc : Word) (s : Cpu) : Flow :=
  match link with
  | some r => .chain r pc { s with lastPc := pc }
  | none => .endOp pc s

def doMret (s : Cpu) : Cpu :=
  let mstatus := s.csr.mstatus &&& ~~~(0x1800 : Word)
  let mpie : Word := (mstatus &&& 0x80) >>> 7
  { s with privMode := (s.csr.mstatus &&& 0x1800) >>> 11, PC := s.csr.mepc,
           csr := { s.csr with mstatus := mstatus ||| mpie <<< 3 ||| 0x80 } }

/-- What a body of each shape does, with `cycle` already incremented. -/
def Code.exec (env : Env) (ir : Insn) (lk : Links) (cycle : BitVec 64) (pc : Word) (s : Cpu) :
    Code → Flow
  | .set dst val => .next (s.setX (dst ir) (val ir s.X pc))
  | .skip => .next s
  | .load compress mask addr read =>
    let a := addr ir s.X
    if misaligned env mask a then misalignTrap .loadMisaligned a compress cycle pc s
    else .next (s.setX ir.rd (read s a))
  | .store compress mask addr write =>
    let a := addr ir s.X
    if misaligned env mask a then misalignTrap .storeMisaligned a compress cycle pc s
    else .next (write s a (s.X ir.rs2))
  | .lrw =>
    let a := s.X ir.rs1
    if misaligned env 3 a then misalignTrap .loadMisaligned a false cycle pc s
    else .next (s.setXNz ir.rd (s.memReadW a))
  | .scw =>
    let a := s.X ir.rs1
    if misaligned env 3 a then misalignTrap .storeMisaligned a false cycle pc s
    else .next ((s.memWriteW a (s.X ir.rs2)).setX ir.rd 0)
  | .amo f =>
    let a := s.X ir.rs1
    if misaligned env 3 a then misalignTrap .loadMisaligned a false cycle pc s
    else
      let value1 := s.memReadW a
      .next ((s.setXNz ir.rd value1).memWriteW a (f value1 (s.X ir.rs2)))
  | .flw addr =>
    let a := addr ir s.X
    if misaligned env 3 a then misalignTrap .loadMisaligned a false cycle pc s
    else .next { s with fpu := s.fpu.setF ir.rd (s.memReadW a) }
  | .fsw addr =>
    let a := addr ir s.X
    if misaligned env 3 a then misalignTrap .storeMisaligned a false cycle pc s
    else .next (s.memWriteW a (s.fpu.F ir.rs2))
  | .fpu f => .next { s with fpu := f env.fp ir s.X s.fpu }
  | .fpuX f =>
    let r := f env.fp ir s.fpu
    .next ({ s with fpu := r.2 }.setXNz ir.rd r.1)
  | .csr f =>
    let r := f env ir s.X cycle s
    .next (r.2.setXNz ir.rd r.1)
  | .branch untaken =>
    if untaken (s.X ir.rs1) (s.X ir.rs2) then
      let s := { s with isBranchTaken := false }
      if lk.untaken.isSome then .endOp (pc + 4) s else .next s
    else
      let s := { s with isBranchTaken := true }
      let target := pc + ir.imm
      if insnMisaligned env target then misalignTrap .insnMisaligned pc false cycle target s
      else .endOp target s
  | .cbranch untaken =>
    if untaken (s.X ir.rs1) then
      let s := { s with isBranchTaken := false }
      if lk.untaken.isSome then chainOr lk.untaken (pc + 2) s else .next s
    else chainOr lk.taken (pc + ir.imm) { s with isBranchTaken := true }
  | .jal =>
    let s := s.setXNz ir.rd (pc + 4)
    let target := pc + ir.imm
    if insnMisaligned env target then misalignTrap .insnMisaligned pc false cycle target s
    else chainOr lk.taken target s
  | .jalr =>
    let target := (s.X ir.rs1 + ir.imm) &&& ~~~1
    let s := s.setXNz ir.rd (pc + 4)
    if insnMisaligned env target then misalignTrap .insnMisaligned pc false cycle target s
    else .lookup target s
  | .cjal => chainOr lk.taken (pc + ir.imm) (s.setX regRa (pc + 2))
  | .cj => chainOr lk.taken (pc + ir.imm) s
  | .cjr => .lookup (s.X ir.rs1) s
  | .cjalr => .lookup (s.X ir.rs1) (s.setX regRa (pc + 2))
  | .leave => .endOp (pc + 4) s
  | .fencei => .ret true (s.save cycle (pc + 4))
  | .ecall => .trap ⟨.ecallM, 0, .syscall⟩ ({ s with compressed := false }.save cycle pc)
  | .ebreak compress =>
    .trap ⟨.breakpoint, pc, .retTrue⟩ ({ s with compressed := compress }.save cycle pc)
  | .mret => .ret true (doMret s)
  | .fail => .ret false s

/-! ## Values -/

/-- `c ? 1 : 0`. -/
def ofCond (c : Bool) : Word := if c then 1 else 0

/-- `x << n` on a variable 8-bit amount. C leaves `n ≥ 32` undefined; the shift instructions of the
supported hosts take the amount modulo 32. -/
def shlVar (x : Word) (n : BitVec 8) : Word := x <<< (n.toNat % 32)

def rolBy (x : Word) (shamt : Nat) : Word := (x <<< shamt) ||| (x >>> (32 - shamt))
def rorBy (x : Word) (shamt : Nat) : Word := (x >>> shamt) ||| (x <<< (32 - shamt))

/-- The sign bits are ORed in one at a time, as `c.srai` does. -/
def sraLoop (x : Word) (shamt : BitVec 8) : Word :=
  (List.range shamt.toNat).foldl (fun acc i => acc ||| ((0x80000000 &&& x) >>> i))
    (x >>> shamt.toNat)

def divVal (x y : Word) : Word :=
  if y = 0 then BitVec.allOnes 32 else if y = -1 ∧ x = 0x80000000 then x else x.sdiv y

def divuVal (x y : Word) : Word := if y = 0 then BitVec.allOnes 32 else x / y

def remVal (x y : Word) : Word :=
  if y = 0 then x else if y = -1 ∧ x = 0x80000000 then 0 else x.srem y

def remuVal (x y : Word) : Word := if y = 0 then x else x % y

def orcbVal (x : Word) : Word :=
  (List.range 4).foldl (fun acc i =>
    if x &&& ((0xff : Word) <<< (i * 8)) ≠ 0 then acc ||| ((0xff : Word) <<< (i * 8)) else acc) 0

def rev8Val (x : Word) : Word :=
  ((x &&& 0xff) <<< 24) ||| ((x &&& 0xff00) <<< 8) ||| ((x &&& 0xff0000) >>> 8) |||
    ((x &&& 0xff000000) >>> 24)

/-- The loop of `clmul`, `clmulh` and `clmulr`: XOR of `x` shifted by `sh i` over the set bits. -/
def clmulLoop (from_ : Nat) (sh : Word → Nat → Word) (x y : Word) : Word :=
  (List.range' from_ (32 - from_)).foldl (fun out i =>
    if (y >>> i) &&& 1 ≠ 0 then out ^^^ sh x i else out) 0

/-- `X[rs1] + imm`. -/
def addrImm (ir : Insn) (x : Reg → Word) : Word := x ir.rs1 + ir.imm

/-- `X[sp] + imm`. -/
def addrSp (ir : Insn) (x : Reg → Word) : Word := x regSp + ir.imm

namespace Code

/-- `X[rd] = f(X[rs1], X[rs2])`. -/
def bin (f : Word → Word → Word) : Code := .set Insn.rd fun ir x _ => f (x ir.rs1) (x ir.rs2)

/-- `X[rd] = f(X[rs1], imm)`. -/
def imm (f : Word → Word → Word) : Code := .set Insn.rd fun ir x _ => f (x ir.rs1) ir.imm

/-- `X[rd] = f(X[rs1])`. -/
def un (f : Word → Word) : Code := .set Insn.rd fun ir x _ => f (x ir.rs1)

end Code

/-! ## The handler bodies -/

/-- The rows of `rv32_template.c`. `sret` is not in a user-mode build, and a fused opcode has no
`RVOP`. -/
def rvop : Opcode → Code
  | .nop => .set (fun _ => regZero) fun _ _ _ => 0
  | .lui => .set Insn.rd fun ir _ _ => ir.imm
  | .auipc => .set Insn.rd fun ir _ pc => ir.imm + pc
  | .jal => .jal
  | .jalr => .jalr
  | .beq => .branch fun x y => x != y
  | .bne => .branch fun x y => x == y
  | .blt => .branch fun x y => y.sle x
  | .bge => .branch fun x y => x.slt y
  | .bltu => .branch fun x y => y.ule x
  | .bgeu => .branch fun x y => x.ult y
  | .lb => .load false 0 addrImm fun s a => signExtendB ((s.memReadB a).setWidth 32)
  | .lh => .load false 1 addrImm fun s a => signExtendH ((s.memReadS a).setWidth 32)
  | .lw => .load false 3 addrImm Cpu.memReadW
  | .lbu => .load false 0 addrImm fun s a => (s.memReadB a).setWidth 32
  | .lhu => .load false 1 addrImm fun s a => (s.memReadS a).setWidth 32
  | .sb => .store false 0 addrImm fun s a v => s.memWriteB a (v.setWidth 8)
  | .sh => .store false 1 addrImm fun s a v => s.memWriteS a (v.setWidth 16)
  | .sw => .store false 3 addrImm Cpu.memWriteW
  | .addi => .imm fun x i => x + i
  | .slti => .imm fun x i => ofCond (x.slt i)
  | .sltiu => .imm fun x i => ofCond (x.ult i)
  | .xori => .imm fun x i => x ^^^ i
  | .ori => .imm fun x i => x ||| i
  | .andi => .imm fun x i => x &&& i
  | .slli => .imm fun x i => x <<< (i &&& 0x1f).toNat
  | .srli => .imm fun x i => x >>> (i &&& 0x1f).toNat
  | .srai => .imm fun x i => x.sshiftRight (i &&& 0x1f).toNat
  | .add => .bin fun x y => x + y
  | .sub => .bin fun x y => x - y
  | .sll => .bin fun x y => x <<< (y &&& 0x1f).toNat
  | .slt => .bin fun x y => ofCond (x.slt y)
  | .sltu => .bin fun x y => ofCond (x.ult y)
  | .xor => .bin fun x y => x ^^^ y
  | .srl => .bin fun x y => x >>> (y &&& 0x1f).toNat
  | .sra => .bin fun x y => x.sshiftRight (y &&& 0x1f).toNat
  | .or => .bin fun x y => x ||| y
  | .and => .bin fun x y => x &&& y
  | .fence => .leave
  | .ecall => .ecall
  | .ebreak => .ebreak false
  | .wfi => .leave
  | .uret => .fail
  | .sret => .fail
  | .hret => .fail
  | .mret => .mret
  | .sfencevma => .leave
  | .fencei => .fencei
  | .csrrw => .csr fun env ir x => csrCsrrw env ir.imm (x ir.rs1)
  | .csrrs => .csr fun env ir x => csrCsrrs env ir.imm (if ir.rs1 = regZero then 0 else x ir.rs1)
  | .csrrc => .csr fun env ir x => csrCsrrc env ir.imm (if ir.rs1 = regZero then 0 else x ir.rs1)
  | .csrrwi => .csr fun env ir _ => csrCsrrw env ir.imm (ir.rs1.setWidth 32)
  | .csrrsi => .csr fun env ir _ => csrCsrrs env ir.imm (ir.rs1.setWidth 32)
  | .csrrci => .csr fun env ir _ => csrCsrrc env ir.imm (ir.rs1.setWidth 32)
  | .mul => .bin fun x y => (x.signExtend 64 * y.signExtend 64 &&& 0xffffffff).setWidth 32
  | .mulh => .bin fun x y => ((x.signExtend 64 * y.signExtend 64) >>> 32).setWidth 32
  | .mulhsu => .bin fun x y => ((x.signExtend 64 * y.setWidth 64) >>> 32).setWidth 32
  | .mulhu => .bin fun x y => ((x.setWidth 64 * y.setWidth 64) >>> 32).setWidth 32
  | .div => .bin divVal
  | .divu => .bin divuVal
  | .rem => .bin remVal
  | .remu => .bin remuVal
  | .lrw => .lrw
  | .scw => .scw
  | .amoswapw => .amo fun _ y => y
  | .amoaddw => .amo fun x y => x + y
  | .amoxorw => .amo fun x y => x ^^^ y
  | .amoandw => .amo fun x y => x &&& y
  | .amoorw => .amo fun x y => x ||| y
  | .amominw => .amo fun x y => if x.slt y then x else y
  | .amomaxw => .amo fun x y => if y.slt x then x else y
  | .amominuw => .amo fun x y => if x.ult y then x else y
  | .amomaxuw => .amo fun x y => if y.ult x then x else y
  | .flw => .flw addrImm
  | .fsw => .fsw addrImm
  | .fmadds => .fpu fun sf ir _ =>
      .arith (fun rm f => sf.mulAdd rm (f.F ir.rs1) (f.F ir.rs2) (f.F ir.rs3)) ir
  | .fmsubs => .fpu fun sf ir _ =>
      .arith (fun rm f => sf.mulAdd rm (f.F ir.rs1) (f.F ir.rs2) (f.F ir.rs3 ^^^ fmaskSign)) ir
  | .fnmsubs => .fpu fun sf ir _ =>
      .arith (fun rm f => sf.mulAdd rm (f.F ir.rs1 ^^^ fmaskSign) (f.F ir.rs2) (f.F ir.rs3)) ir
  | .fnmadds => .fpu fun sf ir _ =>
      .arith (fun rm f =>
        sf.mulAdd rm (f.F ir.rs1 ^^^ fmaskSign) (f.F ir.rs2) (f.F ir.rs3 ^^^ fmaskSign)) ir
  | .fadds => .fpu fun sf ir _ => .arith (fun rm f => sf.add rm (f.F ir.rs1) (f.F ir.rs2)) ir
  | .fsubs => .fpu fun sf ir _ => .arith (fun rm f => sf.sub rm (f.F ir.rs1) (f.F ir.rs2)) ir
  | .fmuls => .fpu fun sf ir _ => .arith (fun rm f => sf.mul rm (f.F ir.rs1) (f.F ir.rs2)) ir
  | .fdivs => .fpu fun sf ir _ => .arith (fun rm f => sf.div rm (f.F ir.rs1) (f.F ir.rs2)) ir
  | .fsqrts => .fpu fun sf ir _ => .arith (fun rm f => sf.sqrt rm (f.F ir.rs1)) ir
  | .fsgnjs => .fpu fun _ ir _ f =>
      f.setF ir.rd ((f.F ir.rs1 &&& ~~~fmaskSign) ||| (f.F ir.rs2 &&& fmaskSign))
  | .fsgnjns => .fpu fun _ ir _ f =>
      f.setF ir.rd ((f.F ir.rs1 &&& ~~~fmaskSign) ||| (~~~(f.F ir.rs2) &&& fmaskSign))
  | .fsgnjxs => .fpu fun _ ir _ f => f.setF ir.rd (f.F ir.rs1 ^^^ (f.F ir.rs2 &&& fmaskSign))
  | .fmins => .fpu fun sf ir _ => Fpu.fmins sf ir
  | .fmaxs => .fpu fun sf ir _ => Fpu.fmaxs sf ir
  | .fcvtws => .fpuX fun sf => Fpu.toInt sf.toI32
  | .fcvtwus => .fpuX fun sf => Fpu.toInt sf.toUi32
  | .fmvxw => .fpuX fun _ ir f => (f.F ir.rs1, f)
  | .feqs => .fpuX fun sf => Fpu.compare sf.eq
  | .flts => .fpuX fun sf => Fpu.compare sf.lt
  | .fles => .fpuX fun sf => Fpu.compare sf.le
  | .fclasss => .fpuX fun _ ir f => (calcFclass (f.F ir.rs1), f)
  | .fcvtsw => .fpu fun sf ir x => .arith (fun rm _ => sf.ofI32 rm (x ir.rs1)) ir
  | .fcvtswu => .fpu fun sf ir x => .arith (fun rm _ => sf.ofUi32 rm (x ir.rs1)) ir
  | .fmvwx => .fpu fun _ ir x f => f.setF ir.rd (x ir.rs1)
  | .caddi4spn => .set Insn.rd fun ir x _ => x regSp + (ir.imm.setWidth 16).setWidth 32
  | .clw => .load true 3 addrImm Cpu.memReadW
  | .csw => .store true 3 addrImm Cpu.memWriteW
  | .cnop => .skip
  | .caddi => .set Insn.rd fun ir x _ => x ir.rd + signExtendH ir.imm
  | .cjal => .cjal
  | .cli => .set Insn.rd fun ir _ _ => ir.imm
  | .caddi16sp => .set Insn.rd fun ir x _ => x ir.rd + ir.imm
  | .clui => .set Insn.rd fun ir _ _ => ir.imm
  | .csrli => .set Insn.rs1 fun ir x _ => x ir.rs1 >>> ir.shamt.toNat
  | .csrai => .set Insn.rs1 fun ir x _ => sraLoop (x ir.rs1) ir.shamt
  | .candi => .set Insn.rs1 fun ir x _ => x ir.rs1 &&& ir.imm
  | .csub => .bin fun x y => x - y
  | .cxor => .bin fun x y => x ^^^ y
  | .cor => .bin fun x y => x ||| y
  | .cand => .bin fun x y => x &&& y
  | .cj => .cj
  | .cbeqz => .cbranch fun x => x != 0
  | .cbnez => .cbranch fun x => x == 0
  | .cslli => .set Insn.rd fun ir x _ => shlVar (x ir.rd) (ir.imm.setWidth 8)
  | .clwsp => .load true 3 addrSp Cpu.memReadW
  | .cjr => .cjr
  | .cmv => .set Insn.rd fun ir x _ => x ir.rs2
  | .cebreak => .ebreak true
  | .cjalr => .cjalr
  | .cadd => .bin fun x y => x + y
  | .cswsp => .store true 3 addrSp Cpu.memWriteW
  | .cflwsp => .flw addrSp
  | .cfswsp => .fsw addrSp
  | .cflw => .flw addrImm
  | .cfsw => .fsw addrImm
  | .sh1add => .bin fun x y => (x <<< 1) + y
  | .sh2add => .bin fun x y => (x <<< 2) + y
  | .sh3add => .bin fun x y => (x <<< 3) + y
  | .andn => .bin fun x y => x &&& ~~~y
  | .orn => .bin fun x y => x ||| ~~~y
  | .xnor => .bin fun x y => ~~~(x ^^^ y)
  | .clz => .un fun x => if x ≠ 0 then x.clz else 32
  | .ctz => .un fun x => if x ≠ 0 then x.ctz else 32
  | .cpop => .un BitVec.cpop
  | .max => .bin fun x y => if y.slt x then x else y
  | .min => .bin fun x y => if x.slt y then x else y
  | .maxu => .bin fun x y => if y.ult x then x else y
  | .minu => .bin fun x y => if x.ult y then x else y
  | .sextb => .un fun x => if x &&& 0x80 ≠ 0 then (x &&& 0xff) ||| 0xffffff00 else x &&& 0xff
  | .sexth => .un fun x => if x &&& 0x8000 ≠ 0 then (x &&& 0xffff) ||| 0xffff0000 else x &&& 0xffff
  | .zexth => .un fun x => x &&& 0x0000ffff
  | .rol => .bin fun x y => rolBy x (y &&& 0x1f).toNat
  | .ror => .bin fun x y => rorBy x (y &&& 0x1f).toNat
  | .rori => .imm fun x i => rorBy x (i &&& 0x1f).toNat
  | .orcb => .un orcbVal
  | .rev8 => .un rev8Val
  | .clmul => .bin (clmulLoop 0 fun x i => x <<< i)
  | .clmulh => .bin (clmulLoop 1 fun x i => x >>> (32 - i))
  | .clmulr => .bin (clmulLoop 0 fun x i => x >>> (32 - i - 1))
  | .bclr => .bin fun x y => x &&& ~~~((1 : Word) <<< (y &&& 0x1f).toNat)
  | .bclri => .imm fun x i => x &&& ~~~((1 : Word) <<< (i &&& 0x1f).toNat)
  | .bext => .bin fun x y => (x >>> (y &&& 0x1f).toNat) &&& 1
  | .bexti => .imm fun x i => (x >>> (i &&& 0x1f).toNat) &&& 1
  | .binv => .bin fun x y => x ^^^ ((1 : Word) <<< (y &&& 0x1f).toNat)
  | .binvi => .imm fun x i => x ^^^ ((1 : Word) <<< (i &&& 0x1f).toNat)
  | .bset => .bin fun x y => x ||| ((1 : Word) <<< (y &&& 0x1f).toNat)
  | .bseti => .imm fun x i => x ||| ((1 : Word) <<< (i &&& 0x1f).toNat)
  | .fuse1 | .fuse2 | .fuse3 | .fuse4 | .fuse5 | .fuse6 | .fuse7 | .fuse8 | .fuse9 | .fuse10
  | .fuse11 | .fuse12 => .fail

/-! ## The `RVOP` macro -/

/-- `end_op`: a node that is not a branch falls through `branch_taken` if it is set. -/
def endOp (ir : Insn) (lk : Links) (cycle : BitVec 64) (pc : Word) (s : Cpu) : Ctl :=
  match ir.opcode.canBranch, lk.taken with
  | false, some r => .enter r cycle pc { s with lastPc := pc }
  | _, _ => .ret true (s.save cycle pc)

/-- `RVOP(inst, code)`; `noNext` is `!ir->next`. -/
def doRvop (env : Env) (ir : Insn) (lk : Links) (noNext : Bool) (cycle : BitVec 64) (pc : Word)
    (s : Cpu) : Ctl :=
  let cycle := cycle + 1
  match (rvop ir.opcode).exec env ir lk cycle pc s with
  | .next s =>
    let pc := pc + ir.opcode.len
    if noNext then endOp ir lk cycle pc s else .next cycle pc s
  | .endOp pc s => endOp ir lk cycle pc s
  | .lookup pc s => .lookup cycle pc s
  | .chain r pc s => .enter r cycle pc s
  | .ret ok s => .ret ok s
  | .trap t s => .trap t s

/-! ## What a handler has done -/

/-- The machine without the copies of `PC` and the cycle count, which a handler passes on in
registers when it chains, and without the bookkeeping of the block linker. -/
def Cpu.arch (s : Cpu) : Cpu :=
  { s with PC := 0, csr := { s.csr with cycle := 0 }, isBranchTaken := false, lastPc := 0 }

structure Result where
  /-- The next `PC`, or `rv->PC` at a trap. -/
  pc : Word
  cycle : BitVec 64
  trap : Option Trap
  arch : Cpu

/-- The next node is entered with `pc` and `cycle` in registers; a return leaves them in the state. -/
def Ctl.result : Ctl → Result
  | .next cycle pc s | .enter _ cycle pc s | .lookup cycle pc s => ⟨pc, cycle, none, s.arch⟩
  | .ret _ s => ⟨s.PC, s.csr.cycle, none, s.arch⟩
  | .trap t s => ⟨s.PC, s.csr.cycle, some t, s.arch⟩

def Ctl.isTrap : Ctl → Bool
  | .trap _ _ => true
  | _ => false

def Ctl.cpu : Ctl → Cpu
  | .next _ _ s | .enter _ _ _ s | .lookup _ _ s | .ret _ s | .trap _ s => s

end Rv32emu
