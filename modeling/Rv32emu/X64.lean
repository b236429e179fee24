import Mathlib.Data.BitVec
import Mathlib.Logic.Function.Basic

/-!
# A fragment of x86-64

The integer instructions that a simple code generator emits, on sixteen registers, four flags, the words pushed
since the code was entered and a byte-addressed memory.

* `Instr.exec` : one instruction. A division whose quotient does not fit, a pop of what was not pushed and the
  use of flags that the architecture leaves undefined have no result;
* `Item`, `run` : instructions and conditional jumps over code; `Ending` : code that ends in jumps out of it;
* `Emitter` : code generators that pass a state of their own along; `Emitter.exec` : the code that one emits, run
  at once. It commutes with `>>=` (`exec_bind`), so a generator is executed step by step without its code;
* `Emitter.Triple` : what holds of generator and machine when the emitted code has run.
-/

namespace X64

inductive Reg
  | rax | rcx | rdx | rbx | rsp | rbp | rsi | rdi | r8 | r9 | r10 | r11 | r12 | r13 | r14 | r15
  deriving DecidableEq, Repr

structure Flags where
  zf : Bool
  sf : Bool
  cf : Bool
  of : Bool
  deriving DecidableEq, Repr

inductive Cell
  | word (v : BitVec 64)
  | flags (f : Flags)
  deriving DecidableEq, Repr

abbrev Memory := BitVec 64 → BitVec 8

/-- `flags = none`: undefined. -/
structure State where
  regs : Reg → BitVec 64
  flags : Option Flags
  stack : List Cell
  mem : Memory

/-- The size of an operand in memory: 8, 16 or 32 bits. -/
inductive Width
  | s8 | s16 | s32
  deriving DecidableEq, Repr

inductive Alu
  | add | or | and | sub | xor | cmp | test
  deriving DecidableEq, Repr

inductive Shift
  | shl | shr | sar
  deriving DecidableEq, Repr

inductive Cond
  | e | ne | l | ge | b | ae
  deriving DecidableEq, Repr

inductive Instr
  | mov (src dst : Reg)
  /-- `mov r32, imm32`. -/
  | movImm32 (dst : Reg) (imm : BitVec 32)
  /-- `mov r64, imm64`, or `mov r64, imm32` with the sign extended. -/
  | movImm64 (dst : Reg) (imm : BitVec 64)
  | movsxd (src dst : Reg)
  | cmov (c : Cond) (src dst : Reg)
  | alu32 (op : Alu) (src dst : Reg)
  | alu32Imm (op : Alu) (dst : Reg) (imm : BitVec 32)
  | add64 (src dst : Reg)
  | shift32Imm (op : Shift) (dst : Reg) (n : BitVec 8)
  /-- By `cl`. -/
  | shift32Cl (op : Shift) (dst : Reg)
  | shr64Imm (dst : Reg) (n : BitVec 8)
  | mul32 (src : Reg)
  | mul64 (src : Reg)
  | div32 (src : Reg)
  | push (src : Reg)
  | pop (dst : Reg)
  | pushfq
  | popfq
  /-- `movzx`, `movsx`, `mov` or `movsxd` from memory. -/
  | load (w : Width) (sext : Bool) (base : Reg) (disp : BitVec 32) (dst : Reg)
  | store (w : Width) (src base : Reg) (disp : BitVec 32)
  /-- `mov` of the immediate 0. -/
  | storeZero (w : Width) (base : Reg) (disp : BitVec 32)
  deriving DecidableEq, Repr

/-! ## Instructions -/

def lo (v : BitVec 64) : BitVec 32 := v.setWidth 32

/-- A 32-bit result clears the high half. -/
def zx (v : BitVec 32) : BitVec 64 := v.setWidth 64

@[simp] theorem lo_zx (v : BitVec 32) : lo (zx v) = v := BitVec.setWidth_setWidth_of_le v (by decide)

@[simp] theorem lo_signExtend (v : BitVec 32) : lo (v.signExtend 64) = v := by
  apply BitVec.eq_of_getLsbD_eq
  intro i hi
  simp only [lo, BitVec.getLsbD_setWidth, BitVec.getLsbD_signExtend]
  simp [hi, Nat.lt_trans hi (show 32 < 64 by decide)]

theorem toNat_zx (v : BitVec 32) : (zx v).toNat = v.toNat := BitVec.toNat_setWidth_of_le (by decide)

theorem zx_div (x y : BitVec 32) : zx x / zx y = zx (x / y) := by
  apply BitVec.eq_of_toNat_eq
  simp only [BitVec.toNat_udiv, toNat_zx]

theorem zx_mod (x y : BitVec 32) : zx x % zx y = zx (x % y) := by
  apply BitVec.eq_of_toNat_eq
  simp only [BitVec.toNat_umod, toNat_zx]

theorem zero_append (x : BitVec 32) : ((0 : BitVec 32) ++ x : BitVec 64) = zx x := by
  apply BitVec.eq_of_toNat_eq
  rw [BitVec.toNat_append, toNat_zx]
  simp

def State.set (s : State) (r : Reg) (v : BitVec 64) : State := { s with regs := Function.update s.regs r v }

namespace State

variable (s : State) (r : Reg) (v : BitVec 64)

@[simp] theorem set_regs : (s.set r v).regs = Function.update s.regs r v := rfl

theorem set_regs_self : (s.set r v).regs r = v := Function.update_self ..

@[simp] theorem set_flags : (s.set r v).flags = s.flags := rfl

@[simp] theorem set_stack : (s.set r v).stack = s.stack := rfl

@[simp] theorem set_mem : (s.set r v).mem = s.mem := rfl

@[simp] theorem set_self : s.set r (s.regs r) = s := by rw [set, Function.update_eq_self]

end State

def State.addr (s : State) (base : Reg) (disp : BitVec 32) : BitVec 64 := s.regs base + disp.signExtend 64

/-- The flags of a logical operation with the result `r`. -/
def logicFlags (r : BitVec 32) : Flags := ⟨r == 0, r.msb, false, false⟩

def addFlags (x y : BitVec 32) : Flags :=
  ⟨x + y == 0, (x + y).msb, decide (2 ^ 32 ≤ x.toNat + y.toNat), x.msb == y.msb && (x + y).msb != x.msb⟩

def subFlags (x y : BitVec 32) : Flags :=
  ⟨x == y, (x - y).msb, x.ult y, x.msb != y.msb && (x - y).msb != x.msb⟩

namespace Alu

/-- `x` is the destination. -/
def flags (x y : BitVec 32) : Alu → Flags
  | .add => addFlags x y
  | .sub | .cmp => subFlags x y
  | .or => logicFlags (x ||| y)
  | .and | .test => logicFlags (x &&& y)
  | .xor => logicFlags (x ^^^ y)

/-- `none`: only the flags are set. -/
def result (x y : BitVec 32) : Alu → Option (BitVec 32)
  | .add => some (x + y)
  | .sub => some (x - y)
  | .or => some (x ||| y)
  | .and => some (x &&& y)
  | .xor => some (x ^^^ y)
  | .cmp | .test => none

def apply (op : Alu) (dst : Reg) (y : BitVec 32) (s : State) : State :=
  let x := lo (s.regs dst)
  let s := { s with flags := some (op.flags x y) }
  match op.result x y with
  | some r => s.set dst (zx r)
  | none => s

theorem apply_of_result {op : Alu} {dst : Reg} {y r : BitVec 32} {s : State}
    (h : op.result (lo (s.regs dst)) y = some r) :
    op.apply dst y s = { s with flags := some (op.flags (lo (s.regs dst)) y) }.set dst (zx r) := by
  simp only [apply, h]

@[simp] theorem cmp_apply (dst : Reg) (y : BitVec 32) (s : State) :
    Alu.cmp.apply dst y s = { s with flags := some (subFlags (lo (s.regs dst)) y) } := rfl

@[simp] theorem test_apply (dst : Reg) (y : BitVec 32) (s : State) :
    Alu.test.apply dst y s = { s with flags := some (logicFlags (lo (s.regs dst) &&& y)) } := rfl

@[simp] theorem xor_apply (dst : Reg) (y : BitVec 32) (s : State) :
    Alu.xor.apply dst y s =
      { s with flags := some (logicFlags (lo (s.regs dst) ^^^ y)) }.set dst (zx (lo (s.regs dst) ^^^ y)) := rfl

end Alu

/-- The amount is taken modulo 32. -/
def Shift.eval (x : BitVec 32) (n : BitVec 8) : Shift → BitVec 32
  | .shl => x <<< (n.toNat % 32)
  | .shr => x >>> (n.toNat % 32)
  | .sar => x.sshiftRight (n.toNat % 32)

/-- The flags after a shift are not modelled. -/
def Shift.apply (op : Shift) (dst : Reg) (n : BitVec 8) (s : State) : State :=
  { s with flags := none }.set dst (zx (op.eval (lo (s.regs dst)) n))

def Cond.holds (f : Flags) : Cond → Bool
  | .e => f.zf
  | .ne => !f.zf
  | .l => f.sf != f.of
  | .ge => f.sf == f.of
  | .b => f.cf
  | .ae => !f.cf

/-- What it says of the operands of a comparison. -/
def Cond.eval (x y : BitVec 32) : Cond → Bool
  | .e => x == y
  | .ne => x != y
  | .l => x.slt y
  | .ge => !x.slt y
  | .b => x.ult y
  | .ae => !x.ult y

theorem sub_flags_slt (x y : BitVec 32) : ((x - y).msb != (x.msb != y.msb && (x - y).msb != x.msb)) = x.slt y := by
  have hx := x.isLt
  have hy := y.isLt
  rw [BitVec.slt, BitVec.toInt_eq_toNat_cond, BitVec.toInt_eq_toNat_cond]
  simp only [BitVec.msb_eq_decide, BitVec.toNat_sub, Nat.add_one_sub_one]
  cases ha : decide (2 ^ 31 ≤ x.toNat) <;>
    cases hb : decide (2 ^ 31 ≤ y.toNat) <;>
    cases hc : decide (2 ^ 31 ≤ (2 ^ 32 - y.toNat + x.toNat) % 2 ^ 32)
  all_goals
    simp only [decide_eq_true_eq, decide_eq_false_iff_not] at ha hb hc
    split_ifs <;> simp <;> omega

theorem Cond.holds_subFlags (x y : BitVec 32) (c : Cond) : c.holds (subFlags x y) = c.eval x y := by
  cases c with
  | e | ne | b | ae => rfl
  | l => exact sub_flags_slt x y
  | ge =>
    rw [eval, ← sub_flags_slt, bne, Bool.not_not]
    rfl

theorem Cond.holds_ne_subFlags {x y : BitVec 32} : Cond.holds (subFlags x y) .ne = true ↔ x ≠ y := by
  rw [holds_subFlags, eval, bne_iff_ne]

/-- The bytes at `a`, the lowest first. -/
def Width.read (m : Memory) (a : BitVec 64) : Width → BitVec 32
  | .s8 => (m a).setWidth 32
  | .s16 => (m (a + 1) ++ m a).setWidth 32
  | .s32 => m (a + 3) ++ m (a + 2) ++ m (a + 1) ++ m a

def Width.extend (v : BitVec 32) (sext : Bool) : Width → BitVec 64
  | .s8 => if sext then zx ((v.setWidth 8).signExtend 32) else zx v
  | .s16 => if sext then zx ((v.setWidth 16).signExtend 32) else zx v
  | .s32 => if sext then v.signExtend 64 else zx v

def Width.write (m : Memory) (a : BitVec 64) (v : BitVec 32) : Width → Memory
  | .s8 => Function.update m a (v.extractLsb' 0 8)
  | .s16 => Function.update (Function.update m a (v.extractLsb' 0 8)) (a + 1) (v.extractLsb' 8 8)
  | .s32 => Function.update (Function.update (Function.update (Function.update m a (v.extractLsb' 0 8)) (a + 1)
      (v.extractLsb' 8 8)) (a + 2) (v.extractLsb' 16 8)) (a + 3) (v.extractLsb' 24 8)

def Width.size : Width → Nat
  | .s8 => 1
  | .s16 => 2
  | .s32 => 4

namespace Width

variable (w : Width) {m m' : Memory} {a x : BitVec 64} {v : BitVec 32}

theorem read_congr (h : ∀ k : BitVec 64, k.toNat < w.size → m (a + k) = m' (a + k)) : w.read m a = w.read m' a := by
  have h0 : m a = m' a := by simpa using h 0 (by cases w <;> decide)
  cases w with
  | s8 => rw [read, read, h0]
  | s16 => rw [read, read, h0, h 1 (by decide)]
  | s32 => rw [read, read, h0, h 1 (by decide), h 2 (by decide), h 3 (by decide)]

/-- A write changes the bytes from `a` on. -/
theorem write_of_ne (h : ∀ k : BitVec 64, k.toNat < w.size → x ≠ a + k) : w.write m a v x = m x := by
  have h0 : x ≠ a := by simpa using h 0 (by cases w <;> decide)
  cases w with
  | s8 => rw [write, Function.update_of_ne h0]
  | s16 => rw [write, Function.update_of_ne (h 1 (by decide)), Function.update_of_ne h0]
  | s32 =>
    rw [write, Function.update_of_ne (h 3 (by decide)), Function.update_of_ne (h 2 (by decide)),
      Function.update_of_ne (h 1 (by decide)), Function.update_of_ne h0]

/-- A byte after a write depends on that byte before. -/
theorem write_congr (h : m x = m' x) : w.write m a v x = w.write m' a v x := by
  cases w <;> simp only [write, Function.update_apply, h]

/-- The memory from `b` on. -/
theorem write_shift (m : Memory) (b a x : BitVec 64) (v : BitVec 32) :
    w.write m (b + a) v (b + x) = w.write (fun k => m (b + k)) a v x := by
  cases w <;> simp only [write, Function.update_apply, BitVec.add_assoc, BitVec.add_right_inj]

end Width

def Instr.exec (s : State) : Instr → Option State
  | .mov src dst => some (s.set dst (s.regs src))
  | .movImm32 dst imm => some (s.set dst (zx imm))
  | .movImm64 dst imm => some (s.set dst imm)
  | .movsxd src dst => some (s.set dst ((lo (s.regs src)).signExtend 64))
  | .cmov c src dst => s.flags.map fun f => s.set dst (if c.holds f then s.regs src else s.regs dst)
  | .alu32 op src dst => some (op.apply dst (lo (s.regs src)) s)
  | .alu32Imm op dst imm => some (op.apply dst imm s)
  | .add64 src dst => some ({ s with flags := none }.set dst (s.regs dst + s.regs src))
  | .shift32Imm op dst n => some (op.apply dst n s)
  | .shift32Cl op dst => some (op.apply dst ((s.regs .rcx).setWidth 8) s)
  | .shr64Imm dst n => some ({ s with flags := none }.set dst (s.regs dst >>> (n.toNat % 64)))
  | .mul32 src =>
    let p := zx (lo (s.regs .rax)) * zx (lo (s.regs src))
    some (({ s with flags := none }.set .rax (zx (lo p))).set .rdx (p >>> 32))
  | .mul64 src =>
    let p := (s.regs .rax).setWidth 128 * (s.regs src).setWidth 128
    some (({ s with flags := none }.set .rax (p.setWidth 64)).set .rdx ((p >>> 64).setWidth 64))
  | .div32 src =>
    let n : BitVec 64 := lo (s.regs .rdx) ++ lo (s.regs .rax)
    let d := zx (lo (s.regs src))
    if d ≠ 0 ∧ (n / d).toNat < 2 ^ 32 then
      some (({ s with flags := none }.set .rax (n / d)).set .rdx (n % d))
    else none
  | .push src => some { s with stack := .word (s.regs src) :: s.stack }
  | .pop dst => match s.stack with
    | .word v :: rest => some ({ s with stack := rest }.set dst v)
    | _ => none
  | .pushfq => s.flags.map fun f => { s with stack := .flags f :: s.stack }
  | .popfq => match s.stack with
    | .flags f :: rest => some { s with stack := rest, flags := some f }
    | _ => none
  | .load w sext base disp dst => some (s.set dst (w.extend (w.read s.mem (s.addr base disp)) sext))
  | .store w src base disp => some { s with mem := w.write s.mem (s.addr base disp) (lo (s.regs src)) }
  | .storeZero w base disp => some { s with mem := w.write s.mem (s.addr base disp) 0 }

/-- With a high half of 0 the quotient fits. -/
theorem Instr.exec_div32 (s : State) (src : Reg) (h : lo (s.regs .rdx) = 0) (h0 : lo (s.regs src) ≠ 0) :
    (Instr.div32 src).exec s =
      some (({ s with flags := none }.set .rax (zx (lo (s.regs .rax) / lo (s.regs src)))).set .rdx
        (zx (lo (s.regs .rax) % lo (s.regs src)))) := by
  have hd : zx (lo (s.regs src)) ≠ 0 := fun hz => h0 (by rw [← lo_zx (lo (s.regs src)), hz]; rfl)
  have hlt : (zx (lo (s.regs .rax) / lo (s.regs src))).toNat < 2 ^ 32 := by
    rw [toNat_zx]
    exact BitVec.isLt _
  simp only [Instr.exec, h, zero_append, zx_div, zx_mod]
  rw [if_pos ⟨hd, hlt⟩]

/-! ## Code with jumps over code -/

inductive Item
  | instr (i : Instr)
  /-- The jump `c` goes to the end of `body`. -/
  | skip (c : Cond) (body : List Item)

mutual

def Item.run : Item → State → Option State
  | .instr i, s => i.exec s
  | .skip c body, s => s.flags.bind fun f => if c.holds f then some s else run body s

def run : List Item → State → Option State
  | [], s => some s
  | i :: rest, s => (i.run s).bind fun s => run rest s

end

theorem run_append (l l' : List Item) (s : State) : run (l ++ l') s = (run l s).bind (run l') := by
  induction l generalizing s with
  | nil => rw [List.nil_append, run, Option.bind_some]
  | cons i l ih =>
    rw [List.cons_append, run, run, Option.bind_assoc]
    exact congrArg _ (funext ih)

theorem run_singleton (i : Item) (s : State) : run [i] s = i.run s := by
  rw [run]
  cases i.run s with
  | none => rfl
  | some s => rw [Option.bind_some, run]

/-- Code that ends in jumps out of it. A jump to `t` goes on with `rest` where there is no code for `t`. -/
inductive Ending (T : Type)
  | exit
  | jmp (t : T) (rest : Ending T)
  | seq (code : List Item) (rest : Ending T)
  | cond (c : Cond) (taken untaken : Ending T)

/-- Where the code goes to, `none` for the exit, and what it does before; `placed t`: there is code for `t`. -/
def Ending.run {T : Type} (placed : T → Bool) : Ending T → State → Option (Option T × State)
  | .exit, s => some (none, s)
  | .jmp t rest, s => if placed t then some (some t, s) else rest.run placed s
  | .seq code rest, s => (X64.run code s).bind (rest.run placed)
  | .cond c taken untaken, s =>
    s.flags.bind fun f => if c.holds f then taken.run placed s else untaken.run placed s

theorem Ending.run_placed {T : Type} {placed : T → Bool} {e : Ending T} {s s' : State} {t : T}
    (h : e.run placed s = some (some t, s')) : placed t = true := by
  induction e generalizing s with
  | exit => cases h
  | jmp u rest ih =>
    rw [run] at h
    by_cases hu : placed u = true
    · rw [if_pos hu] at h
      cases h
      exact hu
    · rw [if_neg hu] at h
      exact ih h
  | seq code rest ih =>
    obtain ⟨s1, -, h1⟩ := Option.bind_eq_some_iff.mp h
    exact ih h1
  | cond c taken untaken ih ih' =>
    obtain ⟨f, -, h1⟩ := Option.bind_eq_some_iff.mp h
    by_cases hc : c.holds f = true
    · rw [if_pos hc] at h1
      exact ih h1
    · rw [if_neg hc] at h1
      exact ih' h1

/-! ## Code generators -/

/-- A generator with the state `M`: it fails, or appends code. -/
def Emitter (M α : Type) : Type := M → Option (α × M × List Item)

namespace Emitter

variable {M α β : Type}

instance : Monad (Emitter M) where
  pure a := fun m => some (a, m, [])
  bind e f := fun m => (e m).bind fun x => (f x.1 x.2.1).map fun y => (y.1, y.2.1, x.2.2 ++ y.2.2)

def get : Emitter M M := fun m => some (m, m, [])

def modify (f : M → M) : Emitter M Unit := fun m => some ((), f m, [])

def fail : Emitter M α := fun _ => none

def emit (i : Instr) : Emitter M Unit := fun m => some ((), m, [.instr i])

/-- A jump over the code of `body`. -/
def skip (c : Cond) (body : Emitter M Unit) : Emitter M Unit := fun m =>
  (body m).map fun x => ((), x.2.1, [.skip c x.2.2])

/-- The code of `body`, which is not placed yet. -/
def capture (body : Emitter M Unit) : Emitter M (List Item) := fun m =>
  (body m).map fun x => (x.2.2, x.2.1, [])

/-- The code of `e` for the generator's state `m`, run from `s`. -/
def exec (e : Emitter M α) (m : M) (s : State) : Option (α × M × State) :=
  (e m).bind fun x => (run x.2.2 s).map fun s' => (x.1, x.2.1, s')

theorem exec_eq_some {e : Emitter M α} {m m' : M} {s s' : State} {a : α} :
    e.exec m s = some (a, m', s') ↔ ∃ code, e m = some (a, m', code) ∧ run code s = some s' := by
  rw [exec, Option.bind_eq_some_iff]
  constructor
  · rintro ⟨⟨a', m1, code⟩, he, h⟩
    obtain ⟨s1, hs, h⟩ := Option.map_eq_some_iff.mp h
    cases h
    exact ⟨code, he, hs⟩
  · rintro ⟨code, he, hs⟩
    exact ⟨_, he, Option.map_eq_some_iff.mpr ⟨s', hs, rfl⟩⟩

@[simp] theorem exec_pure (a : α) (m : M) (s : State) : (pure a : Emitter M α).exec m s = some (a, m, s) := by
  simp only [exec, pure, Option.bind_some, run, Option.map_some]

@[simp] theorem exec_bind (e : Emitter M α) (f : α → Emitter M β) (m : M) (s : State) :
    (e >>= f).exec m s = (e.exec m s).bind fun x => (f x.1).exec x.2.1 x.2.2 := by
  simp only [exec, bind, Option.bind_assoc]
  cases e m with
  | none => rfl
  | some x =>
    simp only [Option.bind_some, Option.bind_map]
    cases hf : f x.1 x.2.1 with
    | none => cases run x.2.2 s <;> simp [hf]
    | some y => cases hr : run x.2.2 s <;> simp [hf, hr, run_append]

@[simp] theorem exec_get (m : M) (s : State) : (get : Emitter M M).exec m s = some (m, m, s) := by
  simp only [exec, get, Option.bind_some, run, Option.map_some]

@[simp] theorem exec_modify (f : M → M) (m : M) (s : State) : (modify f).exec m s = some ((), f m, s) := by
  simp only [exec, modify, Option.bind_some, run, Option.map_some]

@[simp] theorem exec_emit (i : Instr) (m : M) (s : State) :
    (emit i).exec m s = (i.exec s).map fun s' => ((), m, s') := by
  simp only [exec, emit, Option.bind_some, run_singleton, Item.run]

theorem exec_pop (r : Reg) (m : M) (s : State) (v : BitVec 64) (st : List Cell) (h : s.stack = .word v :: st) :
    (emit (.pop r)).exec m s = some ((), m, { s with stack := st }.set r v) := by
  rw [exec_emit, Instr.exec, h]
  rfl

/-- What `body` records is recorded also when its code is skipped. -/
theorem exec_skip (c : Cond) (body : Emitter M Unit) (m : M) (s : State) (f : Flags) (hf : s.flags = some f) :
    (skip c body).exec m s = if c.holds f then (body m).map fun x => ((), x.2.1, s) else body.exec m s := by
  simp only [exec, skip]
  cases body m with
  | none => simp
  | some x => cases hc : c.holds f <;> simp [run_singleton, Item.run, hf, hc]

theorem exec_capture {body : Emitter M Unit} {m m' : M} {code : List Item} (h : body m = some ((), m', code))
    (s : State) : (capture body).exec m s = some (code, m', s) := by
  simp only [exec, capture, h, Option.map_some, Option.bind_some, run]

/-- The code of `e` with the ending that it returns. -/
def execTo {T : Type} (placed : T → Bool) (e : Emitter M (Ending T)) (m : M) (s : State) :
    Option (Option T × State) :=
  (e.exec m s).bind fun x => x.1.run placed x.2.2

theorem execTo_placed {T : Type} {placed : T → Bool} {e : Emitter M (Ending T)} {m : M} {s s' : State} {t : T}
    (h : e.execTo placed m s = some (some t, s')) : placed t = true := by
  obtain ⟨x, -, hx⟩ := Option.bind_eq_some_iff.mp h
  exact Ending.run_placed hx

/-- Where `P` holds, `e` does not fail, the code it emits has a result, and `Q` holds then. -/
def Triple (P : M → State → Prop) (e : Emitter M α) (Q : α → M → State → Prop) : Prop :=
  ∀ m s, P m s → ∃ a m' s', e.exec m s = some (a, m', s') ∧ Q a m' s'

section Triple

variable {P P' : M → State → Prop} {Q Q' : α → M → State → Prop} {R : β → M → State → Prop} {e : Emitter M α}
  {f : α → Emitter M β}

theorem Triple.pure {a : α} (h : ∀ m s, P m s → Q a m s) : Triple P (Pure.pure a : Emitter M α) Q :=
  fun m s hp => ⟨a, m, s, exec_pure a m s, h m s hp⟩

theorem Triple.bind (he : Triple P e Q) (hf : ∀ a, Triple (Q a) (f a) R) : Triple P (e >>= f) R := by
  intro m s hp
  obtain ⟨a, m1, s1, he1, hq⟩ := he m s hp
  obtain ⟨b, m2, s2, he2, hr⟩ := hf a m1 s1 hq
  exact ⟨b, m2, s2, by rw [exec_bind, he1, Option.bind_some, he2], hr⟩

theorem Triple.of_exec {g : M → State → α × M × State} (h : ∀ m s, e.exec m s = some (g m s))
    (hq : ∀ m s, P m s → Q (g m s).1 (g m s).2.1 (g m s).2.2) : Triple P e Q :=
  fun m s hp => ⟨_, _, _, h m s, hq m s hp⟩

end Triple

def Ends {T : Type} (placed : T → Bool) (P : M → State → Prop) (e : Emitter M (Ending T))
    (Q : Option T → State → Prop) : Prop :=
  ∀ m s, P m s → ∃ t s', e.execTo placed m s = some (t, s') ∧ Q t s'

theorem Triple.ends {T : Type} {placed : T → Bool} {P : M → State → Prop} {Q : α → M → State → Prop}
    {R : Option T → State → Prop} {e : Emitter M α} {f : α → Emitter M (Ending T)} (he : Triple P e Q)
    (hf : ∀ a, Ends placed (Q a) (f a) R) : Ends placed P (e >>= f) R := by
  intro m s hp
  obtain ⟨a, m1, s1, he1, hq⟩ := he m s hp
  obtain ⟨t, s2, he2, hr⟩ := hf a m1 s1 hq
  exact ⟨t, s2, by rw [execTo, exec_bind, he1, Option.bind_some]; exact he2, hr⟩

end Emitter

end X64
