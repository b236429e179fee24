import Mathlib.Data.BitVec

/-!
# A fragment of LLVM IR

Straight-line code over typed SSA registers, cut into basic blocks, with the builder interface of the
C API and an execution function.

* `Ty`, `Operand`, `Rhs`, `Item` : the instructions; pointers are an arbitrary type `P`, and a static
  `getelementptr` index is an element of `G`;
* `Fragment`, `Build` : what a builder has emitted so far; a builder is the number of the block at whose
  end it stands, and block 0 is the one the caller's builder stands at;
* `Host` : memory and functions of the process the code runs in;
* `Fragment.exec` : execution from block 0. A division by zero, a signed division that overflows, a shift
  by the width or more and an access outside every object are undefined: the result is `none`;
* `Operand.shift`, `Rhs.shift`, `Item.shift` : code moved to other registers does the same;
* `Straight` : builder programs that append to block 0 neither calls nor terminators, as functions on the
  state of the process.
-/

namespace Llvm

/-- `int 0` is the result of a `void` function. -/
inductive Ty
  | int (w : Nat)
  | ptr
  deriving DecidableEq

def Ty.Val (P : Type) : Ty → Type
  | .int w => BitVec w
  | .ptr => P

/-- A constant or the result of an instruction. -/
inductive Operand (P : Type) (t : Ty)
  | const (v : t.Val P)
  | reg (n : Nat)

inductive BinOp
  | add | sub | mul | and | or | xor | shl | lshr | ashr | sdiv | udiv | srem | urem
  deriving DecidableEq

inductive Pred
  | eq | ne | slt | sge | ult | uge
  deriving DecidableEq

inductive CastOp
  | zext | sext | trunc
  deriving DecidableEq

inductive Rhs (P G : Type) : Ty → Type
  | bin {w : Nat} (op : BinOp) (a b : Operand P (.int w)) : Rhs P G (.int w)
  | cast {v : Nat} (op : CastOp) (a : Operand P (.int v)) (w : Nat) : Rhs P G (.int w)
  | icmp {w : Nat} (p : Pred) (a b : Operand P (.int w)) : Rhs P G (.int 1)
  | select {t : Ty} (c : Operand P (.int 1)) (a b : Operand P t) : Rhs P G t
  | isNotNull (p : Operand P .ptr) : Rhs P G (.int 1)
  /-- `getelementptr` with a constant index. -/
  | gep (p : Operand P .ptr) (g : G) : Rhs P G .ptr
  /-- `getelementptr` into an array. -/
  | elem (p : Operand P .ptr) (i : Operand P (.int 64)) : Rhs P G .ptr
  | intToPtr (a : Operand P (.int 64)) : Rhs P G .ptr
  | load (t : Ty) (p : Operand P .ptr) : Rhs P G t
  /-- `atomicrmw add`; the result is the old value. -/
  | atomicAdd {w : Nat} (p : Operand P .ptr) (v : Operand P (.int w)) : Rhs P G (.int w)
  | call (t : Ty) (f : Operand P .ptr) (args : List (Σ t : Ty, Operand P t)) : Rhs P G t

inductive Item (P G : Type)
  | assign {t : Ty} (n : Nat) (rhs : Rhs P G t)
  | store {t : Ty} (v : Operand P t) (p : Operand P .ptr)
  | retVoid
  | br (b : Nat)
  | condBr (c : Operand P (.int 1)) (then_ else_ : Nat)

/-! ## Building -/

abbrev Builder := Nat

/-- The code under construction: the number of registers and of blocks, and what was emitted where, the
last item first. -/
structure Fragment (P G : Type) where
  regs : Nat := 0
  count : Nat := 1
  log : List (Builder × Item P G) := []

/-- The items of the block `b`. -/
def Fragment.block {P G : Type} (f : Fragment P G) (b : Builder) : List (Item P G) :=
  f.log.reverse.filterMap fun e => if e.1 = b then some e.2 else none

/-- `none` : the builder program itself is undefined. -/
abbrev Build (P G : Type) := StateT (Fragment P G) Option

section Builders

variable {P G : Type} {t : Ty} {w : Nat}

def emit (b : Builder) (i : Item P G) : Build P G Unit :=
  modify fun f => { f with log := (b, i) :: f.log }

def assign (b : Builder) (rhs : Rhs P G t) : Build P G (Operand P t) := do
  let f ← get
  set { f with regs := f.regs + 1, log := (b, .assign f.regs rhs) :: f.log }
  return .reg f.regs

/-- `LLVMAppendBasicBlock`, with a builder positioned at its end. -/
def appendBasicBlock : Build P G Builder := do
  let f ← get
  set { f with count := f.count + 1 }
  return f.count

def constInt (v : BitVec w) : Operand P (.int w) := .const v

def buildBin (b : Builder) (op : BinOp) (x y : Operand P (.int w)) : Build P G (Operand P (.int w)) :=
  assign b (.bin op x y)

def buildCast (b : Builder) {v : Nat} (op : CastOp) (x : Operand P (.int v)) (w : Nat) :
    Build P G (Operand P (.int w)) :=
  assign b (.cast op x w)

def buildICmp (b : Builder) (p : Pred) (x y : Operand P (.int w)) : Build P G (Operand P (.int 1)) :=
  assign b (.icmp p x y)

def buildSelect (b : Builder) (c : Operand P (.int 1)) (x y : Operand P t) : Build P G (Operand P t) :=
  assign b (.select c x y)

def buildIsNotNull (b : Builder) (p : Operand P .ptr) : Build P G (Operand P (.int 1)) :=
  assign b (.isNotNull p)

def buildGEP (b : Builder) (p : Operand P .ptr) (g : G) : Build P G (Operand P .ptr) := assign b (.gep p g)

def buildElem (b : Builder) (p : Operand P .ptr) (i : Operand P (.int 64)) : Build P G (Operand P .ptr) :=
  assign b (.elem p i)

def buildIntToPtr (b : Builder) (a : Operand P (.int 64)) : Build P G (Operand P .ptr) :=
  assign b (.intToPtr a)

def buildLoad2 (b : Builder) (t : Ty) (p : Operand P .ptr) : Build P G (Operand P t) :=
  assign b (.load t p)

def buildStore (b : Builder) (v : Operand P t) (p : Operand P .ptr) : Build P G Unit := emit b (.store v p)

def buildAtomicAdd (b : Builder) (p : Operand P .ptr) (v : Operand P (.int w)) :
    Build P G (Operand P (.int w)) :=
  assign b (.atomicAdd p v)

def buildCall2 (b : Builder) (t : Ty) (f : Operand P .ptr) (args : List (Σ t : Ty, Operand P t)) :
    Build P G (Operand P t) :=
  assign b (.call t f args)

def buildRetVoid (b : Builder) : Build P G Unit := emit b .retVoid

def buildCondBr (b : Builder) (c : Operand P (.int 1)) (then_ else_ : Builder) : Build P G Unit :=
  emit b (.condBr c then_ else_)

end Builders

/-! ## Execution -/

/-- `v ? 1 : 0` in one bit. -/
def bit (v : Bool) : BitVec 1 := BitVec.ofBool v

def truth (v : BitVec 1) : Bool := v == 1

@[simp] theorem truth_bit (v : Bool) : truth (bit v) = v := by cases v <;> rfl

/-- `none` is undefined behaviour. -/
def BinOp.eval {w : Nat} (x y : BitVec w) : BinOp → Option (BitVec w)
  | .add => some (x + y)
  | .sub => some (x - y)
  | .mul => some (x * y)
  | .and => some (x &&& y)
  | .or => some (x ||| y)
  | .xor => some (x ^^^ y)
  | .shl => if y.toNat < w then some (x <<< y.toNat) else none
  | .lshr => if y.toNat < w then some (x >>> y.toNat) else none
  | .ashr => if y.toNat < w then some (x.sshiftRight y.toNat) else none
  | .sdiv => if y = 0 ∨ x = BitVec.intMin w ∧ y = BitVec.allOnes w then none else some (x.sdiv y)
  | .udiv => if y = 0 then none else some (x / y)
  | .srem => if y = 0 ∨ x = BitVec.intMin w ∧ y = BitVec.allOnes w then none else some (x.srem y)
  | .urem => if y = 0 then none else some (x % y)

def Pred.eval {w : Nat} (x y : BitVec w) : Pred → Bool
  | .eq => x == y
  | .ne => x != y
  | .slt => x.slt y
  | .sge => y.sle x
  | .ult => x.ult y
  | .uge => y.ule x

def CastOp.eval {v : Nat} (x : BitVec v) (w : Nat) : CastOp → BitVec w
  | .zext | .trunc => x.setWidth w
  | .sext => x.signExtend w

/-- How a call ends: it returns, or it hands control over to code that is described by `E`. -/
inductive Returned (V S E : Type)
  | returns (v : V) (s : S)
  | leaves (e : E) (s : S)

/-- Memory and functions of the process; `none` is undefined. -/
structure Host (P G S E : Type) where
  gep : P → G → P
  elem : P → BitVec 64 → P
  ofInt : BitVec 64 → P
  isNull : P → Bool
  load : (t : Ty) → P → S → Option (t.Val P)
  store : (t : Ty) → P → t.Val P → S → Option S
  call : (t : Ty) → P → List (Σ t : Ty, t.Val P) → S → Option (Returned (t.Val P) S E)

def Regs (P : Type) : Type := (t : Ty) → Nat → t.Val P

section Exec

variable {P G S E : Type}

def Regs.set (r : Regs P) {t : Ty} (n : Nat) (v : t.Val P) : Regs P := fun t' n' =>
  if h : t = t' then if n' = n then h ▸ v else r t' n' else r t' n'

def Operand.eval {t : Ty} (r : Regs P) : Operand P t → t.Val P
  | .const v => v
  | .reg n => r t n

variable (h : Host P G S E)

/-- An instruction that neither calls nor leaves. -/
def done {V : Type} (s : S) (v : V) : Returned V S E := .returns v s

def Rhs.eval (r : Regs P) (s : S) : {t : Ty} → Rhs P G t → Option (Returned (t.Val P) S E)
  | _, .bin op a b => (op.eval (a.eval r) (b.eval r)).map (done s)
  | _, .cast op a w => some (done s (op.eval (a.eval r) w))
  | _, .icmp p a b => some (done s (bit (p.eval (a.eval r) (b.eval r))))
  | _, .select c a b => some (done s (if truth (c.eval r) then a.eval r else b.eval r))
  | _, .isNotNull p => some (done s (bit (!h.isNull (p.eval r))))
  | _, .gep p g => some (done s (h.gep (p.eval r) g))
  | _, .elem p i => some (done s (h.elem (p.eval r) (i.eval r)))
  | _, .intToPtr a => some (done s (h.ofInt (a.eval r)))
  | _, .load t p => (h.load t (p.eval r) s).map (done s)
  | _, .atomicAdd (w := w) p v => do
    let old ← h.load (.int w) (p.eval r) s
    let s ← h.store (.int w) (p.eval r) (BitVec.add old (v.eval r)) s
    return .returns old s
  | _, .call t f args => h.call t (f.eval r) (args.map fun a => ⟨a.1, a.2.eval r⟩) s

inductive Exit (E : Type)
  | ret
  /-- At the end of the block `b`, which has no terminator yet. -/
  | fall (b : Nat)
  | left (e : E)

/-- Go on with `k` after an instruction that returns. -/
def Returned.andThen {V : Type} (k : V → S → Option (Exit E × S)) : Returned V S E → Option (Exit E × S)
  | .returns v s => k v s
  | .leaves e s => some (.left e, s)

/-- The rest of the block `b`; `jump` executes a block from its start. -/
def runItems (jump : Nat → Regs P → S → Option (Exit E × S)) (b : Nat) :
    List (Item P G) → Regs P → S → Option (Exit E × S)
  | [], _, s => some (.fall b, s)
  | .assign n rhs :: rest, r, s =>
    (rhs.eval h r s).bind (Returned.andThen fun v s => runItems jump b rest (r.set n v) s)
  | .store v p :: rest, r, s =>
    (h.store _ (p.eval r) (v.eval r) s).bind fun s => runItems jump b rest r s
  | .retVoid :: _, _, s => some (.ret, s)
  | .br b :: _, r, s => jump b r s
  | .condBr c b b' :: _, r, s => if truth (c.eval r) then jump b r s else jump b' r s

/-- At most `fuel` blocks are entered. -/
def runBlocks (blocks : Nat → List (Item P G)) : Nat → Nat → Regs P → S → Option (Exit E × S)
  | 0, _, _, _ => none
  | fuel + 1, b, r, s => runItems h (runBlocks blocks fuel) b (blocks b) r s

/-- A fragment jumps forward only, so it enters every block at most once. -/
def Fragment.exec (f : Fragment P G) (r : Regs P) (s : S) : Option (Exit E × S) :=
  runBlocks h f.block f.count 0 r s

/-! ## Straight-line code -/

def Rhs.isCall : {t : Ty} → Rhs P G t → Bool
  | _, .call .. => true
  | _, _ => false

/-- An item that neither calls nor ends its block. -/
def Item.isPlain : Item P G → Bool
  | .assign _ rhs => !rhs.isCall
  | .store .. => true
  | _ => false

/-- Go on with `k` after an instruction that returns; the others are not plain. -/
def Returned.plain {V A : Type} (k : V → S → Option A) : Returned V S E → Option A
  | .returns v s => k v s
  | .leaves .. => none

/-- Plain items, with the registers they leave. -/
def runPlain : List (Item P G) → Regs P → S → Option (Regs P × S)
  | [], r, s => some (r, s)
  | .assign n rhs :: rest, r, s =>
    (rhs.eval h r s).bind (Returned.plain fun v s => runPlain rest (r.set n v) s)
  | .store v p :: rest, r, s => (h.store _ (p.eval r) (v.eval r) s).bind fun s => runPlain rest r s
  | _ :: _, _, _ => none

theorem Rhs.eval_returns {t : Ty} {rhs : Rhs P G t} (hcall : rhs.isCall = false) (r : Regs P) (s : S) {e : E}
    {s' : S} : rhs.eval h r s ≠ some (.leaves e s') := by
  intro heq
  cases rhs with
  | call => cases hcall
  | bin op a b =>
    obtain ⟨v, -, hv⟩ := Option.map_eq_some_iff.mp heq
    cases hv
  | load t p =>
    obtain ⟨v, -, hv⟩ := Option.map_eq_some_iff.mp heq
    cases hv
  | atomicAdd p v =>
    obtain ⟨old, -, hold⟩ := Option.bind_eq_some_iff.mp heq
    obtain ⟨s1, -, hs1⟩ := Option.bind_eq_some_iff.mp hold
    cases hs1
  | cast | icmp | select | isNotNull | gep | elem | intToPtr => cases heq

theorem runItems_append (jump : Nat → Regs P → S → Option (Exit E × S)) (b : Nat) (items rest : List (Item P G))
    (hplain : ∀ i ∈ items, i.isPlain = true) (r : Regs P) (s : S) :
    runItems h jump b (items ++ rest) r s =
      (runPlain h items r s).bind fun x => runItems h jump b rest x.1 x.2 := by
  induction items generalizing r s with
  | nil => rfl
  | cons i items ih =>
    have hi := hplain i (by simp)
    have ih' := fun r s => ih (fun j hj => hplain j (List.mem_cons_of_mem i hj)) r s
    cases i with
    | assign n rhs =>
      have hcall : rhs.isCall = false := by
        rwa [Item.isPlain, Bool.not_eq_true'] at hi
      rw [List.cons_append, runItems, runPlain]
      rcases heval : rhs.eval h r s with _ | ⟨v, s1⟩ | ⟨e, s1⟩
      · rfl
      · exact ih' (r.set n v) s1
      · exact absurd heval (rhs.eval_returns h hcall r s)
    | store v p =>
      rw [List.cons_append, runItems, runPlain]
      cases h.store _ (p.eval r) (v.eval r) s with
      | none => rfl
      | some s1 => exact ih' r s1
    | retVoid | br | condBr => cases hi

theorem runPlain_append (items items' : List (Item P G)) (r : Regs P) (s : S) :
    runPlain h (items ++ items') r s = (runPlain h items r s).bind fun x => runPlain h items' x.1 x.2 := by
  induction items generalizing r s with
  | nil => rfl
  | cons i items ih =>
    cases i with
    | assign n rhs =>
      rw [List.cons_append, runPlain, runPlain]
      rcases rhs.eval h r s with _ | ⟨v, s1⟩ | ⟨e, s1⟩
      · rfl
      · exact ih (r.set n v) s1
      · rfl
    | store v p =>
      rw [List.cons_append, runPlain, runPlain]
      cases h.store _ (p.eval r) (v.eval r) s with
      | none => rfl
      | some s1 => exact ih r s1
    | retVoid | br | condBr => rfl

/-! ### Registers are numbered from where a program starts -/

def Operand.shift (k : Nat) {t : Ty} : Operand P t → Operand P t
  | .const v => .const v
  | .reg n => .reg (k + n)

def Rhs.shift (k : Nat) : {t : Ty} → Rhs P G t → Rhs P G t
  | _, .bin op a b => .bin op (a.shift k) (b.shift k)
  | _, .cast op a w => .cast op (a.shift k) w
  | _, .icmp p a b => .icmp p (a.shift k) (b.shift k)
  | _, .select c a b => .select (c.shift k) (a.shift k) (b.shift k)
  | _, .isNotNull p => .isNotNull (p.shift k)
  | _, .gep p g => .gep (p.shift k) g
  | _, .elem p i => .elem (p.shift k) (i.shift k)
  | _, .intToPtr a => .intToPtr (a.shift k)
  | _, .load t p => .load t (p.shift k)
  | _, .atomicAdd p v => .atomicAdd (p.shift k) (v.shift k)
  | _, .call t f args => .call t (f.shift k) (args.map fun a => ⟨a.1, a.2.shift k⟩)

def Item.shift (k : Nat) : Item P G → Item P G
  | .assign n rhs => .assign (k + n) (rhs.shift k)
  | .store v p => .store (v.shift k) (p.shift k)
  | .retVoid => .retVoid
  | .br b => .br b
  | .condBr c b b' => .condBr (c.shift k) b b'

/-- The registers from `k` on. -/
def Regs.shift (r : Regs P) (k : Nat) : Regs P := fun t n => r t (k + n)

theorem Regs.set_shift (r : Regs P) (k n : Nat) {t : Ty} (v : t.Val P) :
    (r.set (k + n) v).shift k = (r.shift k).set n v := by
  funext t' n'
  simp only [Regs.shift, Regs.set, Nat.add_left_cancel_iff]

theorem Operand.eval_shift (r : Regs P) (k : Nat) {t : Ty} (a : Operand P t) :
    (a.shift k).eval r = a.eval (r.shift k) := by
  cases a <;> rfl

theorem Rhs.eval_shift (r : Regs P) (k : Nat) (s : S) {t : Ty} (rhs : Rhs P G t) :
    (rhs.shift k).eval h r s = rhs.eval h (r.shift k) s := by
  cases rhs <;> simp only [Rhs.shift, Rhs.eval, Operand.eval_shift, List.map_map, Function.comp_def]

theorem Item.isPlain_shift (k : Nat) (i : Item P G) : (i.shift k).isPlain = i.isPlain := by
  cases i with
  | assign n rhs => cases rhs <;> rfl
  | store | retVoid | br | condBr => rfl

theorem runPlain_shift (k : Nat) (items : List (Item P G)) (r : Regs P) (s : S) :
    (runPlain h (items.map fun i => i.shift k) r s).map (fun x => (x.1.shift k, x.2)) =
      runPlain h items (r.shift k) s := by
  induction items generalizing r s with
  | nil => rfl
  | cons i items ih =>
    cases i with
    | assign n rhs =>
      rw [List.map_cons, Item.shift, runPlain, runPlain, Rhs.eval_shift]
      rcases rhs.eval h (r.shift k) s with _ | ⟨v, s1⟩ | ⟨e, s1⟩
      · rfl
      · refine (ih _ s1).trans ?_
        rw [Regs.set_shift]
        rfl
      · rfl
    | store v p =>
      rw [List.map_cons, Item.shift, runPlain, runPlain, Operand.eval_shift, Operand.eval_shift]
      cases h.store _ (p.eval (r.shift k)) (v.eval (r.shift k)) s with
      | none => rfl
      | some s1 => exact ih r s1
    | retVoid | br | condBr => rfl

/-- What a program emits at register 0, the last item first. -/
def emitted {α : Type} (code : Build P G α) : List (Builder × Item P G) :=
  ((code {}).map fun x => x.2.log).getD []

/-- The program returns `a`, and the plain items it appends to block 0 take a state `s` to `g s`. -/
def Straight {α : Type} (code : Build P G α) (a : α) (g : S → Option S) : Prop :=
  ∀ regs count log, ∃ new regs',
    code ⟨regs, count, log⟩ = some (a, ⟨regs', count, new ++ log⟩) ∧
      (∀ e ∈ new, e.1 = 0 ∧ e.2.isPlain = true) ∧
      ∀ r s, (runPlain h (new.reverse.map Prod.snd) r s).map Prod.snd = g s

variable {h} {α β : Type} {code : Build P G α} {a : α} {g : S → Option S}

theorem straight_pure (a : α) : Straight h (pure a : Build P G α) a some :=
  fun regs _ _ => ⟨[], regs, rfl, by simp, fun _ _ => rfl⟩

/-- A program whose items are the ones it emits at register 0, moved to where it starts. -/
theorem straight_of_emitted (n : Nat)
    (hcode : ∀ regs count log, code ⟨regs, count, log⟩ =
      some (a, ⟨regs + n, count, (emitted code).map (fun e => (e.1, e.2.shift regs)) ++ log⟩))
    (hplain : ((emitted code).all fun e => e.1 == 0 && e.2.isPlain) = true)
    (hrun : ∀ r s, (runPlain h ((emitted code).reverse.map Prod.snd) r s).map Prod.snd = g s) :
    Straight h code a g := by
  intro regs count log
  refine ⟨_, regs + n, hcode regs count log, fun e he => ?_, fun r s => ?_⟩
  · obtain ⟨e0, he0, rfl⟩ := List.mem_map.mp he
    have hall := List.all_eq_true.mp hplain e0 he0
    rw [Bool.and_eq_true, beq_iff_eq] at hall
    exact ⟨hall.1, (e0.2.isPlain_shift regs).trans hall.2⟩
  · have hitems : ((emitted code).map fun e => (e.1, e.2.shift regs)).reverse.map Prod.snd =
        ((emitted code).reverse.map Prod.snd).map fun i => i.shift regs := by
      rw [← List.map_reverse, List.map_map, List.map_map]
      rfl
    rw [hitems, ← hrun (r.shift regs) s, ← runPlain_shift, Option.map_map]
    rfl

theorem Straight.bind {code' : α → Build P G β} {b : β} {g' : S → Option S} (h1 : Straight h code a g)
    (h2 : Straight h (code' a) b g') : Straight h (code >>= code') b fun s => (g s).bind g' := by
  intro regs count log
  obtain ⟨new, regs1, hcode, hplain, hrun⟩ := h1 regs count log
  obtain ⟨new', regs2, hcode', hplain', hrun'⟩ := h2 regs1 count (new ++ log)
  refine ⟨new' ++ new, regs2, ?_, ?_, fun r s => ?_⟩
  · change (code ⟨regs, count, log⟩).bind (fun x => code' x.1 x.2) = _
    rw [hcode, Option.bind_some, hcode', List.append_assoc]
  · intro e he
    rcases List.mem_append.mp he with he | he
    · exact hplain' e he
    · exact hplain e he
  · rw [List.reverse_append, List.map_append, runPlain_append]
    change _ = (g s).bind g'
    rw [← hrun r s]
    cases runPlain h (new.reverse.map Prod.snd) r s with
    | none => rfl
    | some x => exact hrun' x.1 x.2

/-- A fragment of straight-line code falls through. -/
theorem Straight.exec (h1 : Straight h code a g) :
    ∃ f, code {} = some (a, f) ∧ ∀ r s, f.exec h r s = (g s).map fun s' => (.fall 0, s') := by
  obtain ⟨new, regs', hcode, hplain, hrun⟩ := h1 0 1 []
  refine ⟨_, hcode, fun r s => ?_⟩
  have hfilter : ∀ l : List (Builder × Item P G), (∀ e ∈ l, e.1 = 0) →
      (l.filterMap fun e => if e.1 = 0 then some e.2 else none) = l.map Prod.snd := by
    intro l hl
    induction l with
    | nil => rfl
    | cons e l ih =>
      rw [List.filterMap_cons, if_pos (hl e (by simp)), ih fun e' he' => hl e' (List.mem_cons_of_mem e he')]
      rfl
  have hblock : Fragment.block ⟨regs', 1, new ++ []⟩ 0 = new.reverse.map Prod.snd ++ [] := by
    unfold Fragment.block
    rw [List.append_nil, List.append_nil, hfilter new.reverse fun e he => (hplain e (List.mem_reverse.mp he)).1]
  unfold Fragment.exec runBlocks
  rw [hblock, runItems_append h _ 0 _ _ ?_ r s, ← hrun r s]
  · cases runPlain h (new.reverse.map Prod.snd) r s <;> rfl
  · intro i hi
    obtain ⟨e, he, rfl⟩ := List.mem_map.mp hi
    exact (hplain e (List.mem_reverse.mp he)).2

end Exec

end Llvm
