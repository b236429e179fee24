import Rv32emu.T2cCover
import Rv32emu.T2cFused

/-!
# The shape of tier-2 code

In a user-mode build.

* `Insn.Falls`, `Insn.Ends` : the nodes whose code falls through, and those that end a block;
* `Formed` : no code in blocks that there are not, no jump back to the first block, and builders that are its own;
* `t2c_falls`, `t2c_ends` : the code of every handler is of that form, and what falls through has one block.
-/

namespace Rv32emu

open Llvm

def Insn.Falls (ir : Insn) : Prop :=
  match ir.opcode with
  | .nop | .lui | .auipc | .lb | .lh | .lw | .lbu | .lhu | .sb | .sh | .sw | .addi | .slti | .sltiu | .xori | .ori
  | .andi | .slli | .srli | .srai | .add | .sub | .sll | .slt | .sltu | .xor | .srl | .sra | .or | .and | .mul | .mulh
  | .mulhsu | .mulhu | .div | .divu | .rem | .remu | .caddi4spn | .clw | .csw | .cnop | .caddi | .cli | .caddi16sp
  | .clui | .csrli | .csrai | .candi | .csub | .cxor | .cor | .cand | .cslli | .clwsp | .cmv | .cadd | .cswsp
  | .fuse1 | .fuse2 | .fuse3 | .fuse4 | .fuse7 | .fuse8 | .fuse9 | .fuse10 | .fuse11 => True
  | .fuse5 => ∀ f ∈ ir.fused, isShiftImm f.opcode = true
  | _ => False

def Insn.Ends (ir : Insn) : Prop :=
  match ir.opcode with
  | .jal | .cj | .cjal | .beq | .bne | .blt | .bge | .bltu | .bgeu | .fuse12 | .cbeqz | .cbnez | .jalr | .cjr | .cjalr
  | .ecall | .ebreak | .cebreak | .fuse6 => True
  | _ => False

structure Formed (handed : Handed) (c : Fragment HostPtr Gep) : Prop where
  bounded : c.Bounded
  forward : c.Forward
  count : 0 < c.count
  taken : ∀ b, handed.taken = some b → b < c.count
  untaken : ∀ b, handed.untaken = some b → b < c.count

def formed (handed : Handed) (c : Fragment HostPtr Gep) : Bool :=
  (c.log.all fun e => decide (e.1 < c.count) && e.2.targets.all fun j => decide (0 < j)) && decide (0 < c.count) &&
    handed.taken.all (fun b => decide (b < c.count)) && handed.untaken.all fun b => decide (b < c.count)

theorem formed_of_true {handed : Handed} {c : Fragment HostPtr Gep} (h : formed handed c = true) : Formed handed c := by
  simp only [formed, Bool.and_eq_true, List.all_eq_true, decide_eq_true_eq, Option.all_eq_true] at h
  obtain ⟨⟨⟨hlog, hcount⟩, htaken⟩, huntaken⟩ := h
  exact ⟨fun b i hi => (hlog (b, i) hi).1, fun b i hi => (hlog (b, i) hi).2, hcount, htaken, huntaken⟩

theorem formed_of_plain {regs : Nat} {new : List (Builder × Item HostPtr Gep)}
    (h : ∀ e ∈ new, e.1 = 0 ∧ e.2.isPlain = true) : Formed {} ⟨regs, 1, new⟩ where
  bounded b i hi := by
    obtain rfl : b = 0 := (h (b, i) hi).1
    exact Nat.one_pos
  forward b i hi j hj := by
    have hplain := (h (b, i) hi).2
    cases i with
    | assign | store => cases hj
    | retVoid | br | condBr => cases hplain
  count := Nat.one_pos
  taken _ hb := by cases hb
  untaken _ hb := by cases hb

theorem loop_formed (mb : BitVec 64) (l : List OpcodeFuse) {body : OpcodeFuse → T2cBuild Handed}
    {g : OpcodeFuse → T2cState → Option T2cState}
    (h : ∀ f ∈ l, Straight (t2cHost (Env.bare false) mb) (body f) {} (g f)) :
    ∃ c, t2cOp (forFuse body l) {} = some ({}, c) ∧ Formed {} c ∧ c.count = 1 := by
  obtain ⟨new, regs, hcode, hplain, -⟩ := t2cOp_straight (forFuse_straight l h) 0 1 []
  exact ⟨_, hcode, formed_of_plain fun e he => hplain e (by rwa [List.append_nil] at he), rfl⟩

section Shape

variable (mb : BitVec 64) (chk : Word → Bool) (lk : T2cLinks)

/-- The code of a node that falls through hands nothing over and has one block. -/
theorem t2c_falls {ir : Insn} (h : ir.Falls) :
    ∃ c, t2c ⟨false, mb, chk⟩ lk ir {} = some ({}, c) ∧ Formed {} c ∧ c.count = 1 := by
  obtain ⟨imm, rd, rs1, rs2, opcode, shamt, rm, imm2, fuse, pc⟩ := ir
  cases opcode
  case fuse1 =>
    have hform := loop_formed mb (fuse.take imm2.toNat) fun f _ => storeImm_straight f.rd f.imm
    exact hform
  case fuse3 =>
    have hform := loop_formed mb (fuse.take imm2.toNat) fun f _ => store_straight chk f.rs1 f.rs2 f.imm
    exact hform
  case fuse4 =>
    have hform := loop_formed mb (fuse.take imm2.toNat) fun f _ => load_straight chk f.rs1 f.rd f.imm
    exact hform
  case fuse5 =>
    have hform := loop_formed mb (fuse.take imm2.toNat) fun f hf => fuseShift_straight (h f hf)
    exact hform
  case fuse7 =>
    have hform := loop_formed mb (fuse.take imm2.toNat) fun f _ => aluImm_straight .add f.rs1 f.rd f.imm
    exact hform
  all_goals first | exact ⟨_, rfl, formed_of_true rfl, rfl⟩ | exact absurd h id

theorem t2c_ends {ir : Insn} (h : ir.Ends) :
    ∃ handed c, t2c ⟨false, mb, chk⟩ lk ir {} = some (handed, c) ∧ Formed handed c := by
  obtain ⟨imm, rd, rs1, rs2, opcode, shamt, rm, imm2, fuse, pc⟩ := ir
  cases opcode
  case jal =>
    simp only [t2c, t2cCode, storeLink]
    generalize T2cEnv.valid _ lk.taken = tk
    split_ifs <;> cases tk <;> exact ⟨_, _, rfl, formed_of_true rfl⟩
  case jalr =>
    simp only [t2c, t2cCode, t2cJalr, storeLink]
    split_ifs <;> exact ⟨_, _, rfl, formed_of_true rfl⟩
  case cj | cjal =>
    simp only [t2c, t2cCode]
    generalize lk.taken.isSome = tk
    cases tk <;> exact ⟨_, _, rfl, formed_of_true rfl⟩
  case cbeqz | cbnez =>
    simp only [t2c, t2cCode, t2cCBranch]
    generalize lk.taken.isSome = tk
    generalize lk.untaken.isSome = utk
    cases tk <;> cases utk <;> exact ⟨_, _, rfl, formed_of_true rfl⟩
  case beq | bne | blt | bge | bltu | bgeu =>
    simp only [t2c, t2cCode, t2cBranchFunc]
    generalize T2cEnv.valid _ lk.taken = tk
    generalize T2cEnv.valid _ lk.untaken = utk
    cases tk <;> cases utk <;> exact ⟨_, _, rfl, formed_of_true rfl⟩
  case fuse12 =>
    simp only [t2c, t2cFuse12]
    generalize T2cEnv.valid _ lk.taken = tk
    generalize T2cEnv.valid _ lk.untaken = utk
    cases tk <;> cases utk <;> exact ⟨_, _, rfl, formed_of_true rfl⟩
  all_goals first | exact ⟨_, _, rfl, formed_of_true rfl⟩ | exact absurd h id

end Shape

end Rv32emu
