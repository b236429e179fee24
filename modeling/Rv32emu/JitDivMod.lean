import Rv32emu.JitAlloc
import Rv32emu.Template

/-!
# Division in tier 1

`muldivmod` and the generators of DIV, DIVU, REM and REMU on an x86-64 host.

* `exec_divPrepare`, `exec_divFixup`, `exec_modFixup` : the parts of the sequence, each from the registers it reads;
* `divides` : `muldivmod` for every entry of the register map that the destination can have. RAX and RDX are saved,
  and what the map says of them is as before;
* `udiv_eq_sdiv_iff`, `umod_eq_srem_iff` : where unsigned and signed division agree;
* `division_result` : the generators against the handlers. The sequence divides unsigned and corrects only a divisor
  of 0 and the overflow, so DIV and REM are right for some signs of the operands only.
-/

namespace Rv32emu.Tier1

open X64 (Emitter lo zx)
open X64.Emitter (emit)

/-! ## The generator -/

/-- The opcodes of `muldivmod`: 0x28, 0x2f, 0x38 and 0x98. -/
inductive MulDiv
  | mul | mul64 | div | mod
  deriving DecidableEq, Repr

namespace MulDiv

def isMul : MulDiv → Bool
  | .mul | .mul64 => true
  | .div | .mod => false

/-- The multiplication or division itself; the opcode extension is 4 or 6, so the division is unsigned. -/
def instr : MulDiv → X64.Instr
  | .mul => .mul32 .rcx
  | .mul64 => .mul64 .rcx
  | .div | .mod => .div32 .rcx

end MulDiv

/-- A divisor of 0 is replaced by 1; whether it was 0 is on the stack. -/
def divGuard : Gen Unit := do
  emitAlu32 .test .rcx .rcx
  emit .pushfq
  emitLoadImm .rdx 1
  emitConditionalMove .rdx .rcx
  emitAlu32 .xor .rdx .rdx

/-- What `muldivmod` emits before a division. -/
def divPrepare (op : MulDiv) (sign : Bool) : Gen Unit := do
  if sign then
    emitLoadImmSext .rdx (-1)
    -- compared with -1, for the overflow
    emitCmp32 .rdx .rcx
    emit .pushfq
  if op = .mod ∨ sign then emit (.push .rax)
  divGuard

/-- The quotient on overflow is the dividend. -/
def divOverflow : Gen Unit :=
  Emitter.skip .ne do
    emitCmpImm32 .rcx 0x80000000
    emitConditionalMove .rcx .rax

/-- What it emits behind a division for the quotient, -1 where the divisor was 0. -/
def divFixup (sign : Bool) : Gen Unit := do
  emitLoadImmSext .rcx (-1)
  emitConditionalMove .rcx .rax
  if sign then
    emit (.pop .rcx)
    emit .popfq
    divOverflow

/-- The remainder on overflow is 0. -/
def modOverflow : Gen Unit :=
  Emitter.skip .ne do
    emitCmpImm32 .rcx 0x80000000
    emitLoadImm .rcx 0
    emitConditionalMove .rcx .rdx

/-- What it emits for the remainder, the dividend where the divisor was 0. -/
def modFixup (sign : Bool) : Gen Unit := do
  emit (.pop .rcx)
  emitConditionalMove .rcx .rdx
  if sign then
    emit .popfq
    modOverflow

/-- What it emits between its pushes and pops, the operands in RAX and RCX. -/
def muldivmodCore (op : MulDiv) (sign : Bool) : Gen Unit := do
  if op.isMul then emit op.instr
  else
    divPrepare op sign
    emit op.instr
    emit .popfq
    if op = .div then divFixup sign else modFixup sign

/-- RAX, of index 0, and RDX, of index 2, are taken from the VM register they are mapped to. -/
def saveHost (i : HostIdx) (dst : X64.Reg) : Gen Unit := do
  if dst ≠ hostReg i then
    unmapVmReg i
    emit (.push (hostReg i))

/-- The entry `i` is again as it was in `m0`. -/
def RegMap.restore (m m0 : RegMap) (i : HostIdx) : RegMap where
  vmReg := Function.update m.vmReg i (m0.vmReg i)
  dirty := Function.update m.dirty i (m0.dirty i)
  alive := m.alive

/-- `result`: the register of `i` holds the result. -/
def restoreHost (m0 : RegMap) (i : HostIdx) (dst : X64.Reg) (result : Bool) : Gen Unit := do
  if dst ≠ hostReg i then
    if result then emitMov (hostReg i) dst
    emit (.pop (hostReg i))
    Emitter.modify fun m => m.restore m0 i

def muldivmod (op : MulDiv) (src dst : X64.Reg) (sign : Bool) : Gen Unit := do
  let m ← Emitter.get
  saveHost 0 dst
  saveHost 2 dst
  emitMov src .rcx
  emitMov dst .rax
  muldivmodCore op sign
  restoreHost m 2 dst (op = .mod)
  restoreHost m 0 dst (op ≠ .mod)

/-- The index of RAX, which the handlers of indirect jumps take as well. -/
abbrev firstHost : HostIdx := 0

/-! ## What the emitted code does -/

namespace MulDiv

def out : MulDiv → X64.Reg
  | .mod => .rdx
  | _ => .rax

/-- What is left in `out` for the registers `a` and `b`: a product, or the quotient or the remainder of the unsigned
division but for the corrections. -/
def result (sign : Bool) (a b : BitVec 64) : MulDiv → BitVec 64
  | .mul => zx (lo (zx (lo a) * zx (lo b)))
  | .mul64 => (a.setWidth 128 * b.setWidth 128).setWidth 64
  | .div =>
    if sign ∧ lo b = -1 ∧ lo a = 0x80000000 then a else if lo b = 0 then BitVec.allOnes 64 else zx (lo a / lo b)
  | .mod => if sign ∧ lo b = -1 ∧ lo a = 0x80000000 then 0 else if lo b = 0 then a else zx (lo a % lo b)

end MulDiv

section Sequence

variable (op : MulDiv) (sign : Bool) (m : RegMap) (s : X64.State)

/-- The registers before the division: a divisor other than 0 in RCX, 0 in RDX. -/
def divRegs : X64.Reg → BitVec 64 :=
  Function.update (Function.update s.regs .rcx (if lo (s.regs .rcx) = 0 then zx 1 else s.regs .rcx)) .rdx 0

/-- What lies on the host stack during the division, under the flags of the test for 0. -/
def divSaved : List X64.Cell :=
  (if op = .mod ∨ sign then [.word (s.regs .rax)] else []) ++
    if sign then [.flags (X64.subFlags (lo (s.regs .rcx)) (-1))] else []

theorem divRegs_set_rdx (v : BitVec 64) : divRegs (s.set .rdx v) = divRegs s := by
  have hne : X64.Reg.rdx ≠ .rcx := by decide
  rw [divRegs, X64.State.set_regs, Function.update_of_ne hne.symm, Function.update_comm hne, Function.update_idem]
  rfl

theorem exec_divGuard :
    divGuard.exec m s = some ((), m.setDirty .rdx true, ⟨divRegs s, some (X64.logicFlags 0),
      .flags (X64.logicFlags (lo (s.regs .rcx))) :: s.stack, s.mem⟩) := by
  simp only [divGuard, Emitter.exec_bind, exec_emitAlu32, X64.Alu.test_apply, BitVec.and_self, RegMap.setDirty_rcx,
    Option.bind_some, Emitter.exec_emit, X64.Instr.exec, Option.map_some, exec_emitLoadImm]
  rw [exec_emitConditionalMove _ _ _ _ _ rfl]
  simp only [Option.bind_some, X64.Alu.xor_apply, BitVec.xor_self, RegMap.setDirty_setDirty, X64.State.set,
    X64.logicFlags, beq_iff_eq, Function.update_self, Function.update_of_ne (show X64.Reg.rcx ≠ .rdx by decide)]
  rw [Function.update_comm (show X64.Reg.rdx ≠ .rcx by decide), Function.update_idem]
  rfl

theorem exec_divPrepare :
    (divPrepare op sign).exec m s = some ((), m.setDirty .rdx true, ⟨divRegs s, some (X64.logicFlags 0),
      .flags (X64.logicFlags (lo (s.regs .rcx))) :: (divSaved op sign s ++ s.stack), s.mem⟩) := by
  cases sign
  · by_cases h : op = .mod
    · simp only [divPrepare, h, reduceIte, true_or, Bool.false_eq_true, Emitter.exec_bind, Emitter.exec_emit,
        X64.Instr.exec, Option.map_some, Option.bind_some, exec_divGuard]
      rfl
    · simp [divPrepare, h, exec_divGuard, divSaved]
  · simp only [divPrepare, reduceIte, or_true, Emitter.exec_bind, exec_emitLoadImmSext, exec_emitCmp32,
      X64.Alu.cmp_apply, Emitter.exec_emit, X64.Instr.exec, Option.map_some, Option.bind_some, exec_divGuard,
      RegMap.setDirty_rcx, RegMap.setDirty_setDirty]
    rw [← divRegs_set_rdx s (-1)]
    simp only [divSaved, divRegs, reduceIte, or_true, X64.State.set_regs, X64.State.set_stack, Function.update_self,
      Function.update_of_ne (show X64.Reg.rcx ≠ .rdx by decide),
      Function.update_of_ne (show X64.Reg.rax ≠ .rdx by decide)]
    rfl

def divisor (b : Word) : Word := if b = 0 then 1 else b

theorem divisor_ne_zero (b : Word) : divisor b ≠ 0 := by
  unfold divisor
  split
  · decide
  · assumption

/-- Everything up to the division and the restored test for 0. -/
theorem exec_divide (rest : Gen Unit) :
    (do divPrepare op sign; emit (.div32 .rcx); emit .popfq; rest).exec m s =
      rest.exec (m.setDirty .rdx true)
        ⟨Function.update (Function.update (divRegs s) .rax (zx (lo (s.regs .rax) / divisor (lo (s.regs .rcx))))) .rdx
            (zx (lo (s.regs .rax) % divisor (lo (s.regs .rcx)))),
          some (X64.logicFlags (lo (s.regs .rcx))), divSaved op sign s ++ s.stack, s.mem⟩ := by
  have hrcx : lo (divRegs s .rcx) = divisor (lo (s.regs .rcx)) := by
    rw [divRegs, Function.update_of_ne (by decide), Function.update_self, divisor]
    split <;> simp only [X64.lo_zx]
  have hrax : divRegs s .rax = s.regs .rax := by
    rw [divRegs, Function.update_of_ne (by decide), Function.update_of_ne (by decide)]
  rw [Emitter.exec_bind, exec_divPrepare, Option.bind_some, Emitter.exec_bind, Emitter.exec_emit,
    X64.Instr.exec_div32 _ _ rfl (hrcx ▸ divisor_ne_zero _), Option.map_some, Option.bind_some, Emitter.exec_bind,
    Emitter.exec_emit]
  simp only [hrcx, hrax]
  rfl

theorem exec_divOverflow (R : X64.Reg → BitVec 64) (b : Word) (st : List X64.Cell) (mem : X64.Memory) :
    ∃ s', divOverflow.exec m ⟨R, some (X64.subFlags b (-1)), st, mem⟩ = some ((), m, s') ∧
      s'.regs .rax = (if b = -1 ∧ lo (R .rcx) = 0x80000000 then R .rcx else R .rax) ∧
      (∀ r, r ≠ .rax → s'.regs r = R r) ∧ s'.stack = st ∧ s'.mem = mem := by
  rw [divOverflow, Emitter.exec_skip _ _ _ _ _ rfl]
  by_cases hb : b = -1
  · rw [if_neg fun h => X64.Cond.holds_ne_subFlags.mp h hb]
    simp only [Emitter.exec_bind, exec_emitCmpImm32, X64.Alu.cmp_apply, Option.bind_some]
    rw [exec_emitConditionalMove _ _ _ _ _ rfl]
    refine ⟨_, rfl, ?_, ?_, rfl, rfl⟩
    · simp [hb, X64.subFlags]
    · intro r h
      simp only [X64.State.set_regs, Function.update_of_ne h]
  · rw [if_pos (X64.Cond.holds_ne_subFlags.mpr hb)]
    exact ⟨_, rfl, by rw [if_neg fun h => hb h.1], fun _ _ => rfl, rfl, rfl⟩

theorem exec_modOverflow (R : X64.Reg → BitVec 64) (b : Word) (st : List X64.Cell) (mem : X64.Memory) :
    ∃ s', modOverflow.exec m ⟨R, some (X64.subFlags b (-1)), st, mem⟩ = some ((), m, s') ∧
      s'.regs .rdx = (if b = -1 ∧ lo (R .rcx) = 0x80000000 then 0 else R .rdx) ∧
      (∀ r, r ≠ .rcx → r ≠ .rdx → s'.regs r = R r) ∧ s'.stack = st ∧ s'.mem = mem := by
  rw [modOverflow, Emitter.exec_skip _ _ _ _ _ rfl]
  by_cases hb : b = -1
  · rw [if_neg fun h => X64.Cond.holds_ne_subFlags.mp h hb]
    simp only [Emitter.exec_bind, exec_emitCmpImm32, X64.Alu.cmp_apply, Option.bind_some, exec_emitLoadImm]
    rw [exec_emitConditionalMove _ _ _ _ _ rfl]
    refine ⟨_, rfl, ?_, ?_, rfl, rfl⟩
    · simp [hb, X64.subFlags]
      rfl
    · intro r h h'
      simp only [X64.State.set_regs, Function.update_of_ne h, Function.update_of_ne h']
  · rw [if_pos (X64.Cond.holds_ne_subFlags.mpr hb)]
    exact ⟨_, rfl, by rw [if_neg fun h => hb h.1], fun _ _ _ => rfl, rfl, rfl⟩

theorem exec_divFixup (R : X64.Reg → BitVec 64) (st : List X64.Cell) (mem : X64.Memory) :
    ∃ s', (divFixup sign).exec m ⟨R, some (X64.logicFlags (lo (s.regs .rcx))), divSaved .div sign s ++ st, mem⟩ =
        some ((), m, s') ∧
      s'.regs .rax = (if sign ∧ lo (s.regs .rcx) = -1 ∧ lo (s.regs .rax) = 0x80000000 then s.regs .rax
        else if lo (s.regs .rcx) = 0 then BitVec.allOnes 64 else R .rax) ∧
      (∀ r, r ≠ .rax → r ≠ .rcx → s'.regs r = R r) ∧ s'.stack = st ∧ s'.mem = mem := by
  simp only [divFixup, Emitter.exec_bind, exec_emitLoadImmSext, Option.bind_some]
  rw [exec_emitConditionalMove _ _ _ _ _ rfl]
  cases sign
  · refine ⟨_, by simp only [reduceIte, Bool.false_eq_true, Option.bind_some, Emitter.exec_pure]; rfl, ?_, ?_, rfl,
      rfl⟩
    · simp [X64.logicFlags]
    · intro r h h'
      simp only [X64.State.set_regs, Function.update_of_ne h, Function.update_of_ne h']
  · simp only [reduceIte, Option.bind_some, Emitter.exec_bind, Emitter.exec_emit, X64.Instr.exec, divSaved, or_true,
      X64.State.set_stack, List.cons_append, List.nil_append, Option.map_some]
    obtain ⟨s', hx, hrax, hr, hst, hmem⟩ := exec_divOverflow m
      (Function.update (Function.update (Function.update R .rcx (-1)) .rax
        (if lo (s.regs .rcx) = 0 then -1 else R .rax)) .rcx (s.regs .rax)) (lo (s.regs .rcx)) st mem
    refine ⟨s', ?_, ?_, ?_, hst, hmem⟩
    · rw [← hx]
      simp [X64.logicFlags, X64.State.set]
    · rw [hrax]
      simp
    · intro r h h'
      rw [hr r h]
      simp only [Function.update_of_ne h, Function.update_of_ne h']

theorem exec_modFixup (R : X64.Reg → BitVec 64) (st : List X64.Cell) (mem : X64.Memory) :
    ∃ s', (modFixup sign).exec m ⟨R, some (X64.logicFlags (lo (s.regs .rcx))), divSaved .mod sign s ++ st, mem⟩ =
        some ((), m, s') ∧
      s'.regs .rdx = (if sign ∧ lo (s.regs .rcx) = -1 ∧ lo (s.regs .rax) = 0x80000000 then 0
        else if lo (s.regs .rcx) = 0 then s.regs .rax else R .rdx) ∧
      (∀ r, r ≠ .rcx → r ≠ .rdx → s'.regs r = R r) ∧ s'.stack = st ∧ s'.mem = mem := by
  simp only [modFixup, Emitter.exec_bind, Emitter.exec_emit, X64.Instr.exec, divSaved, true_or, reduceIte,
    List.cons_append, List.nil_append, Option.map_some, Option.bind_some]
  rw [exec_emitConditionalMove _ _ _ _ _ rfl]
  cases sign
  · refine ⟨_, by simp only [reduceIte, Bool.false_eq_true, Option.bind_some, Emitter.exec_pure]; rfl, ?_, ?_, rfl,
      rfl⟩
    · simp [X64.logicFlags]
    · intro r h h'
      simp only [X64.State.set_regs, Function.update_of_ne h, Function.update_of_ne h']
  · simp only [reduceIte, Option.bind_some, Emitter.exec_bind, Emitter.exec_emit, X64.Instr.exec,
      X64.State.set_stack, List.cons_append, List.nil_append, Option.map_some]
    obtain ⟨s', hx, hrdx, hr, hst, hmem⟩ := exec_modOverflow m
      (Function.update (Function.update R .rcx (s.regs .rax)) .rdx
        (if lo (s.regs .rcx) = 0 then s.regs .rax else R .rdx)) (lo (s.regs .rcx)) st mem
    refine ⟨s', ?_, ?_, ?_, hst, hmem⟩
    · rw [← hx]
      simp [X64.logicFlags, X64.State.set]
    · rw [hrdx]
      simp
    · intro r h h'
      rw [hr r h h']
      simp only [Function.update_of_ne h, Function.update_of_ne h']

def MulDiv.mark (m : RegMap) : RegMap := if op.isMul then m else m.setDirty .rdx true

theorem exec_muldivmodCore :
    ∃ s', (muldivmodCore op sign).exec m s = some ((), op.mark m, s') ∧
      s'.regs op.out = op.result sign (s.regs .rax) (s.regs .rcx) ∧
      (∀ r, r ≠ .rax → r ≠ .rcx → r ≠ .rdx → s'.regs r = s.regs r) ∧ s'.stack = s.stack ∧ s'.mem = s.mem := by
  have hregs : ∀ (r : X64.Reg) (q v : BitVec 64), r ≠ .rax → r ≠ .rcx → r ≠ .rdx →
      Function.update (Function.update (divRegs s) .rax q) .rdx v r = s.regs r := fun r q v h h' h'' => by
    rw [Function.update_of_ne h'', Function.update_of_ne h, divRegs, Function.update_of_ne h'',
      Function.update_of_ne h']
  have hdiv : ∀ b : Word, ¬ b = 0 → divisor b = b := fun b hb => if_neg hb
  cases op with
  | mul =>
    refine ⟨_, Emitter.exec_emit (.mul32 .rcx) m s, rfl, fun r h _ h'' => ?_, rfl, rfl⟩
    exact (Function.update_of_ne h'' ..).trans (Function.update_of_ne h ..)
  | mul64 =>
    refine ⟨_, Emitter.exec_emit (.mul64 .rcx) m s, rfl, fun r h _ h'' => ?_, rfl, rfl⟩
    exact (Function.update_of_ne h'' ..).trans (Function.update_of_ne h ..)
  | div =>
    simp only [muldivmodCore, MulDiv.isMul, MulDiv.instr, reduceIte, Bool.false_eq_true]
    rw [exec_divide]
    obtain ⟨s', hx, hv, hr, hst, hmem⟩ := exec_divFixup sign (m.setDirty .rdx true) s _ s.stack s.mem
    refine ⟨s', hx, hv.trans ?_, fun r h h' h'' => (hr r h h').trans (hregs r _ _ h h' h''), hst, hmem⟩
    rw [Function.update_of_ne (by decide), Function.update_self]
    exact ite_congr rfl (fun _ => rfl) fun _ => ite_congr rfl (fun _ => rfl) fun hb => by rw [hdiv _ hb]
  | mod =>
    simp only [muldivmodCore, MulDiv.isMul, MulDiv.instr, reduceIte, Bool.false_eq_true, reduceCtorEq]
    rw [exec_divide]
    obtain ⟨s', hx, hv, hr, hst, hmem⟩ := exec_modFixup sign (m.setDirty .rdx true) s _ s.stack s.mem
    refine ⟨s', hx, hv.trans ?_, fun r h h' h'' => (hr r h' h'').trans (hregs r _ _ h h' h''), hst, hmem⟩
    rw [Function.update_self]
    exact ite_congr rfl (fun _ => rfl) fun _ => ite_congr rfl (fun _ => rfl) fun hb => by rw [hdiv _ hb]

theorem exec_saveHost_self (i : HostIdx) : (saveHost i (hostReg i)).exec m s = some ((), m, s) := by
  rw [saveHost, if_neg (not_not_intro rfl)]
  exact Emitter.exec_pure _ _ _

theorem exec_saveHost_of_ne {i : HostIdx} {dst : X64.Reg} (h : dst ≠ hostReg i) :
    (saveHost i dst).exec m s =
      some ((), m.unmapVmReg i, { s with stack := .word (s.regs (hostReg i)) :: s.stack }) := by
  rw [saveHost, if_pos h, Emitter.exec_bind, exec_unmapVmReg, Option.bind_some, Emitter.exec_emit]
  rfl

theorem exec_restoreHost_self (m0 : RegMap) (i : HostIdx) (result : Bool) :
    (restoreHost m0 i (hostReg i) result).exec m s = some ((), m, s) := by
  rw [restoreHost, if_neg (not_not_intro rfl)]
  exact Emitter.exec_pure _ _ _

theorem exec_restoreHost_of_ne (m0 : RegMap) {i : HostIdx} {dst : X64.Reg} {v : BitVec 64} {st : List X64.Cell}
    (h : dst ≠ hostReg i) (hst : s.stack = .word v :: st) (result : Bool) :
    ∃ s', (restoreHost m0 i dst result).exec m s =
        some ((), (if result then m.setDirty dst true else m).restore m0 i, s') ∧
      s'.regs (hostReg i) = v ∧ s'.regs dst = (if result then s.regs (hostReg i) else s.regs dst) ∧
      (∀ r, r ≠ dst → r ≠ hostReg i → s'.regs r = s.regs r) ∧ s'.stack = st ∧ s'.mem = s.mem := by
  cases result
  · refine ⟨{ s with stack := st }.set (hostReg i) v, ?_, Function.update_self .., Function.update_of_ne h .., ?_, rfl,
      rfl⟩
    · rw [restoreHost, if_pos h, if_neg Bool.false_ne_true, Emitter.exec_bind, Emitter.exec_pop _ _ _ v st hst,
        Option.bind_some, Emitter.exec_modify]
      rfl
    · intro r _ h'
      exact Function.update_of_ne h' ..
  · refine ⟨({ s with stack := st }.set dst (s.regs (hostReg i))).set (hostReg i) v, ?_, Function.update_self ..,
      ?_, ?_, rfl, rfl⟩
    · rw [restoreHost, if_pos h, if_pos rfl, Emitter.exec_bind, exec_emitMov, Option.bind_some, Emitter.exec_bind,
        Emitter.exec_pop _ _ _ v st (by exact hst), Option.bind_some, Emitter.exec_modify]
      rfl
    · exact (Function.update_of_ne h ..).trans (Function.update_self ..)
    · intro r h' h''
      exact (Function.update_of_ne h'' ..).trans (Function.update_of_ne h' ..)

/-- The sequence behind the move of the destination to RAX. -/
theorem exec_muldivmodCore_set (a : BitVec 64) :
    ∃ s', (muldivmodCore op sign).exec m (s.set .rax a) = some ((), op.mark m, s') ∧
      s'.regs op.out = op.result sign a (s.regs .rcx) ∧
      (∀ r, r ≠ .rax → r ≠ .rcx → r ≠ .rdx → s'.regs r = s.regs r) ∧ s'.stack = s.stack ∧ s'.mem = s.mem := by
  obtain ⟨s', hx, hv, hr, hst, hmem⟩ := exec_muldivmodCore op sign m (s.set .rax a)
  refine ⟨s', hx, ?_, fun r h h' h'' => (hr r h h' h'').trans (Function.update_of_ne h _ _), hst, hmem⟩
  rw [hv, X64.State.set_regs, Function.update_self, Function.update_of_ne (by decide)]

/-- Apart from the entry `i`, the map is already as it is to be. -/
theorem restore_eq {m m0 m' : RegMap} {i : HostIdx} (hv : ∀ k, k ≠ i → m.vmReg k = m'.vmReg k)
    (hd : ∀ k, k ≠ i → m.dirty k = m'.dirty k) (hvi : m0.vmReg i = m'.vmReg i) (hdi : m0.dirty i = m'.dirty i)
    (ha : m.alive = m'.alive) : m.restore m0 i = m' :=
  RegMap.ext (Function.update_eq_iff.mpr ⟨hvi, hv⟩) (Function.update_eq_iff.mpr ⟨hdi, hd⟩) ha

/-- What `muldivmod` does with the second operand in RCX: the register of `i` holds the first one and then the
result, and its entry is the one that is changed. -/
def Computes (i : HostIdx) : Prop :=
  ∃ s', (muldivmod op .rcx (hostReg i) sign).exec m s = some ((), m.setDirty (hostReg i) true, s') ∧
    s'.regs (hostReg i) = op.result sign (s.regs (hostReg i)) (s.regs .rcx) ∧
    (∀ r, r ≠ hostReg i → r ≠ .rcx → s'.regs r = s.regs r) ∧ s'.stack = s.stack ∧ s'.mem = s.mem

theorem out_regs : s.regs op.out = if op = .mod then s.regs .rdx else s.regs .rax := by
  cases op <;> rfl

theorem computes_rax : Computes op sign m s 0 := by
  have hd : hostReg 0 ≠ hostReg 2 := by decide
  obtain ⟨s1, hx1, hv1, hr1, hst1, hmem1⟩ := exec_muldivmodCore_set op sign ((m.unmapVmReg 2).setDirty .rax true)
    { s with stack := .word (s.regs (hostReg 2)) :: s.stack } (s.regs (hostReg 0))
  obtain ⟨s2, hx2, hrdx, hrax, hr2, hst2, hmem2⟩ := exec_restoreHost_of_ne
    (op.mark ((m.unmapVmReg 2).setDirty .rax true)) s1 m hd hst1 (decide (op = .mod))
  refine ⟨s2, ?_, ?_, fun r h h' => ?_, hst2, hmem2.trans hmem1⟩
  · simp only [muldivmod, Emitter.exec_bind, Emitter.exec_get, exec_saveHost_self, exec_saveHost_of_ne _ _ hd,
      Option.bind_some, exec_emitMov, RegMap.setDirty_rcx, X64.State.set_self, hx1, hx2, exec_restoreHost_self]
    refine congrArg some (Prod.ext rfl (Prod.ext (restore_eq (fun k hk => ?_) (fun k hk => ?_) ?_ ?_ ?_) rfl))
    · simp only [RegMap.setDirty_rax, RegMap.setDirty_rdx, RegMap.setDirty_hostReg, RegMap.unmapVmReg, MulDiv.mark]
      split <;> split <;> simp [hk]
    · simp only [RegMap.setDirty_rax, RegMap.setDirty_rdx, RegMap.setDirty_hostReg, RegMap.unmapVmReg, MulDiv.mark]
      split <;> split <;> simp [Function.update_apply, hk]
    · simp only [RegMap.setDirty_hostReg]
    · simp [RegMap.setDirty_hostReg]
    · simp only [RegMap.setDirty_rax, RegMap.setDirty_rdx, RegMap.setDirty_hostReg, RegMap.unmapVmReg, MulDiv.mark]
      split <;> split <;> rfl
  · rw [out_regs] at hv1
    rw [← hv1, hrax]
    by_cases hm : op = .mod <;> simp [hm, hostReg]
  · by_cases hr : r = .rdx
    · exact hr ▸ hrdx
    · exact (hr2 r h hr).trans (hr1 r h h' hr)

theorem computes_rdx : Computes op sign m s 2 := by
  have hd : hostReg 2 ≠ hostReg 0 := by decide
  obtain ⟨s1, hx1, hv1, hr1, hst1, hmem1⟩ := exec_muldivmodCore_set op sign ((m.unmapVmReg 0).setDirty .rax true)
    { s with stack := .word (s.regs (hostReg 0)) :: s.stack } (s.regs (hostReg 2))
  obtain ⟨s2, hx2, hrax, hrdx, hr2, hst2, hmem2⟩ := exec_restoreHost_of_ne
    (op.mark ((m.unmapVmReg 0).setDirty .rax true)) s1 m hd hst1 (decide (op ≠ .mod))
  refine ⟨s2, ?_, ?_, fun r h h' => ?_, hst2, hmem2.trans hmem1⟩
  · simp only [muldivmod, Emitter.exec_bind, Emitter.exec_get, exec_saveHost_self, exec_saveHost_of_ne _ _ hd,
      Option.bind_some, exec_emitMov, RegMap.setDirty_rcx, X64.State.set_self, hx1, hx2, exec_restoreHost_self]
    refine congrArg some (Prod.ext rfl (Prod.ext (restore_eq (fun k hk => ?_) (fun k hk => ?_) ?_ ?_ ?_) rfl))
    · simp only [RegMap.setDirty_rax, RegMap.setDirty_rdx, RegMap.setDirty_hostReg, RegMap.unmapVmReg, MulDiv.mark]
      split <;> split <;> simp [hk]
    · cases op <;>
        simp [RegMap.setDirty_rax, RegMap.setDirty_rdx, RegMap.setDirty_hostReg, RegMap.unmapVmReg, MulDiv.mark,
          MulDiv.isMul, Function.update_apply, hk]
    · simp only [RegMap.setDirty_hostReg]
    · simp [RegMap.setDirty_hostReg]
    · simp only [RegMap.setDirty_rax, RegMap.setDirty_rdx, RegMap.setDirty_hostReg, RegMap.unmapVmReg, MulDiv.mark]
      split <;> split <;> rfl
  · rw [out_regs] at hv1
    rw [← hv1, hrdx]
    by_cases hm : op = .mod <;> simp [hm, hostReg]
  · by_cases hr : r = .rax
    · exact hr ▸ hrax
    · exact (hr2 r h hr).trans (hr1 r hr h' h)

/-- Both entries are as before, whichever of RAX and RDX is moved to the register of `i`. -/
theorem restore_both {i : HostIdx} (h0 : i ≠ 0) (h2 : i ≠ 2) (rdx : Bool) {m1 m2 : RegMap}
    (hm1 : op.mark (((m.unmapVmReg 0).unmapVmReg 2).setDirty .rax true) = m1)
    (hm2 : RegMap.restore (if rdx then m1.setDirty (hostReg i) true else m1) m 2 = m2) :
    RegMap.restore (if !rdx then m2.setDirty (hostReg i) true else m2) m 0 = m.setDirty (hostReg i) true := by
  subst hm1 hm2
  unfold MulDiv.mark
  refine restore_eq (fun k hk => ?_) (fun k hk => ?_) ?_ ?_ ?_
  · by_cases hk2 : k = 2 <;>
      cases rdx <;>
      cases op.isMul <;>
      simp [RegMap.restore, RegMap.setDirty_rax, RegMap.setDirty_rdx, RegMap.setDirty_hostReg, RegMap.unmapVmReg,
        hk, hk2]
  · by_cases hk2 : k = 2 <;>
      cases rdx <;>
      cases op.isMul <;>
      simp [RegMap.restore, RegMap.setDirty_rax, RegMap.setDirty_rdx, RegMap.setDirty_hostReg, RegMap.unmapVmReg,
        Function.update_apply, hk, hk2, h2.symm]
  · simp only [RegMap.setDirty_hostReg]
  · simp [RegMap.setDirty_hostReg, h0.symm]
  · cases rdx <;>
      cases op.isMul <;>
      simp [RegMap.restore, RegMap.setDirty_rax, RegMap.setDirty_rdx, RegMap.setDirty_hostReg, RegMap.unmapVmReg]

theorem computes_of_ne {i : HostIdx} (h0 : i ≠ 0) (h2 : i ≠ 2) : Computes op sign m s i := by
  have hd0 : hostReg i ≠ hostReg 0 := fun h => h0 (hostReg_injective h)
  have hd2 : hostReg i ≠ hostReg 2 := fun h => h2 (hostReg_injective h)
  have hd : hostReg 2 ≠ hostReg 0 := by decide
  obtain ⟨s1, hx1, hv1, hr1, hst1, hmem1⟩ := exec_muldivmodCore_set op sign
    (((m.unmapVmReg 0).unmapVmReg 2).setDirty .rax true)
    { s with stack := .word (s.regs (hostReg 2)) :: .word (s.regs (hostReg 0)) :: s.stack } (s.regs (hostReg i))
  obtain ⟨m1, hm1⟩ : ∃ m1, op.mark (((m.unmapVmReg 0).unmapVmReg 2).setDirty .rax true) = m1 := ⟨_, rfl⟩
  obtain ⟨s2, hx2, hrdx, hdst2, hr2, hst2, hmem2⟩ := exec_restoreHost_of_ne m1 s1 m hd2 hst1 (decide (op = .mod))
  obtain ⟨m2, hm2⟩ : ∃ m2, RegMap.restore (if decide (op = .mod) then m1.setDirty (hostReg i) true else m1) m 2 = m2 :=
    ⟨_, rfl⟩
  obtain ⟨s3, hx3, hrax, hdst3, hr3, hst3, hmem3⟩ := exec_restoreHost_of_ne m2 s2 m hd0 hst2 (decide (op ≠ .mod))
  rw [hm1] at hx1
  rw [hm2] at hx2
  refine ⟨s3, ?_, ?_, fun r h h' => ?_, hst3, hmem3.trans (hmem2.trans hmem1)⟩
  · simp only [muldivmod, Emitter.exec_bind, Emitter.exec_get, exec_saveHost_of_ne _ _ hd0,
      exec_saveHost_of_ne _ _ hd2, Option.bind_some, exec_emitMov, RegMap.setDirty_rcx, X64.State.set_self, hx1, hx2,
      hx3]
    rw [← restore_both op m h0 h2 _ hm1 hm2]
    by_cases hm : op = .mod <;> simp [hm]
  · rw [out_regs] at hv1
    rw [← hv1, hdst3, hdst2, hr2 _ hd0.symm hd.symm]
    by_cases hm : op = .mod <;> simp [hm, hostReg]
  · by_cases ha : r = .rax
    · exact ha ▸ hrax
    · by_cases hb : r = .rdx
      · rw [hr3 r h ha]
        exact hb ▸ hrdx
      · rw [hr3 r h ha, hr2 r h hb, hr1 r ha h' hb]

theorem computes (i : HostIdx) : Computes op sign m s i := by
  by_cases h0 : i = 0
  · exact h0 ▸ computes_rax op sign m s
  · by_cases h2 : i = 2
    · exact h2 ▸ computes_rdx op sign m s
    · exact computes_of_ne op sign m s h0 h2

end Sequence

/-! ## Unsigned against signed division -/

section Arith

variable {x y : Nat}

theorem div_pos_neg (hx : x < 2 ^ 31) (hy : 2 ^ 31 ≤ y) (hy' : y < 2 ^ 32) :
    x / y = (2 ^ 32 - x / (2 ^ 32 - y)) % 2 ^ 32 ↔ x < 2 ^ 32 - y := by
  have hle : x / (2 ^ 32 - y) ≤ x := Nat.div_le_self _ _
  rw [Nat.div_eq_of_lt (by omega : x < y)]
  constructor
  · intro h
    have h0 : x / (2 ^ 32 - y) = 0 := by
      generalize x / (2 ^ 32 - y) = q at *
      omega
    exact (Nat.div_eq_zero_iff_lt (by omega)).mp h0
  · intro h
    rw [Nat.div_eq_of_lt h, Nat.sub_zero, Nat.mod_self]

theorem div_neg_pos (hx : 2 ^ 31 ≤ x) (hx' : x < 2 ^ 32) (hy0 : 0 < y) (hy : y < 2 ^ 31) :
    x / y = (2 ^ 32 - (2 ^ 32 - x) / y) % 2 ^ 32 ↔ y = 1 := by
  constructor
  · intro h
    by_contra h1
    have hq : x / y ≤ x / 2 := Nat.div_le_div_left (by omega) (by decide)
    have hq0 : 0 < x / y := Nat.div_pos (by omega) hy0
    have hr : (2 ^ 32 - x) / y ≤ (2 ^ 32 - x) / 2 := Nat.div_le_div_left (by omega) (by decide)
    generalize x / y = q at *
    generalize (2 ^ 32 - x) / y = r at *
    omega
  · rintro rfl
    rw [Nat.div_one, Nat.div_one]
    omega

theorem div_neg_neg (hx : 2 ^ 31 ≤ x) (hx' : x < 2 ^ 32) (hy : 2 ^ 31 ≤ y) (hy' : y < 2 ^ 32) :
    x / y = (2 ^ 32 - x) / (2 ^ 32 - y) ↔ x = y := by
  constructor
  · intro h
    rcases Nat.lt_trichotomy x y with hlt | rfl | hgt
    · have h0 : 0 < (2 ^ 32 - x) / (2 ^ 32 - y) := Nat.div_pos (by omega) (by omega)
      rw [Nat.div_eq_of_lt hlt] at h
      omega
    · rfl
    · have h0 : 0 < x / y := Nat.div_pos (by omega) (by omega)
      rw [Nat.div_eq_of_lt (by omega : 2 ^ 32 - x < 2 ^ 32 - y)] at h
      omega
  · rintro rfl
    rw [Nat.div_self (by omega), Nat.div_self (by omega)]

theorem mod_pos_neg (hx : x < 2 ^ 31) (hy : 2 ^ 31 ≤ y) (hy' : y < 2 ^ 32) :
    x % y = x % (2 ^ 32 - y) ↔ x < 2 ^ 32 - y := by
  rw [Nat.mod_eq_of_lt (by omega : x < y)]
  constructor
  · intro h
    exact h ▸ Nat.mod_lt _ (by omega)
  · exact fun h => (Nat.mod_eq_of_lt h).symm

theorem mod_neg_pos (hx : 2 ^ 31 ≤ x) (hx' : x < 2 ^ 32) (hy0 : 0 < y) (hy : y < 2 ^ 31) :
    x % y = (2 ^ 32 - (2 ^ 32 - x) % y) % 2 ^ 32 ↔ y ∣ 2 ^ 32 - x ∧ y ∣ 2 ^ 32 := by
  have hlt : x % y < y := Nat.mod_lt _ hy0
  have hlt' : (2 ^ 32 - x) % y < y := Nat.mod_lt _ hy0
  have hsum : 2 ^ 32 - x + x = 2 ^ 32 := by omega
  constructor
  · intro h
    have h0 : (2 ^ 32 - x) % y = 0 := by omega
    have hd : y ∣ 2 ^ 32 - x := Nat.dvd_of_mod_eq_zero h0
    rw [h0, Nat.sub_zero, Nat.mod_self] at h
    exact ⟨hd, hsum ▸ Nat.dvd_add hd (Nat.dvd_of_mod_eq_zero h)⟩
  · rintro ⟨h, h'⟩
    have hx0 : y ∣ x := (Nat.dvd_add_right h).mp (hsum.symm ▸ h')
    rw [Nat.mod_eq_zero_of_dvd h, Nat.mod_eq_zero_of_dvd hx0, Nat.sub_zero, Nat.mod_self]

theorem mod_neg_neg (hx : 2 ^ 31 ≤ x) (hx' : x < 2 ^ 32) (hy : 2 ^ 31 ≤ y) (hy' : y < 2 ^ 32) :
    x % y = (2 ^ 32 - (2 ^ 32 - x) % (2 ^ 32 - y)) % 2 ^ 32 ↔ x = y := by
  constructor
  · intro h
    rcases Nat.lt_trichotomy x y with hlt | rfl | hgt
    · have hr : (2 ^ 32 - x) % (2 ^ 32 - y) < 2 ^ 32 - y := Nat.mod_lt _ (by omega)
      rw [Nat.mod_eq_of_lt hlt] at h
      omega
    · rfl
    · rw [Nat.mod_eq_of_lt (by omega : 2 ^ 32 - x < 2 ^ 32 - y), Nat.mod_eq_sub_mod (by omega),
        Nat.mod_eq_of_lt (by omega : x - y < y)] at h
      omega
  · rintro rfl
    rw [Nat.mod_self, Nat.mod_self, Nat.sub_zero, Nat.mod_self]

end Arith

theorem msb_eq_false {a : Word} (h : a.toNat < 2 ^ 31) : a.msb = false := by
  rw [BitVec.msb_eq_decide]
  exact decide_eq_false (by omega)

theorem msb_eq_true {a : Word} (h : ¬ a.toNat < 2 ^ 31) : a.msb = true := by
  rw [BitVec.msb_eq_decide]
  exact decide_eq_true (by omega)

theorem toNat_neg_of_ne {a : Word} (h : ¬ a.toNat < 2 ^ 31) : (-a).toNat = 2 ^ 32 - a.toNat := by
  rw [BitVec.toNat_neg]
  omega

/-- Where the quotient of the unsigned division is that of the signed one. -/
theorem udiv_eq_sdiv_iff (a b : Word) (hb : b ≠ 0) :
    a / b = a.sdiv b ↔
      (0 ≤ a.toInt ∧ 0 < b.toInt) ∨ b = 1 ∨ a = b ∨ (0 ≤ a.toInt ∧ a.toInt < -b.toInt) := by
  have ha := a.isLt
  have hb' := b.isLt
  have hb0 : 0 < b.toNat := Nat.pos_of_ne_zero fun h => hb (BitVec.eq_of_toNat_eq h)
  have h1 : BitVec.toNat (1 : Word) = 1 := rfl
  simp only [BitVec.toInt_eq_toNat_cond, ← BitVec.toNat_inj, BitVec.toNat_udiv]
  rw [BitVec.sdiv_eq]
  by_cases h : a.toNat < 2 ^ 31
  · by_cases h' : b.toNat < 2 ^ 31
    · simp only [msb_eq_false h, msb_eq_false h', BitVec.udiv_eq, BitVec.toNat_udiv, true_iff]
      omega
    · simp only [msb_eq_false h, msb_eq_true h', BitVec.udiv_eq, BitVec.toNat_neg (_ / _), BitVec.toNat_udiv,
        toNat_neg_of_ne h', div_pos_neg h (not_lt.mp h') hb']
      omega
  · by_cases h' : b.toNat < 2 ^ 31
    · simp only [msb_eq_true h, msb_eq_false h', BitVec.udiv_eq, BitVec.toNat_neg (_ / _), BitVec.toNat_udiv,
        toNat_neg_of_ne h, div_neg_pos (not_lt.mp h) ha hb0 h']
      omega
    · simp only [msb_eq_true h, msb_eq_true h', BitVec.udiv_eq, BitVec.toNat_udiv, toNat_neg_of_ne h,
        toNat_neg_of_ne h', div_neg_neg (not_lt.mp h) ha (not_lt.mp h') hb']
      omega

theorem umod_eq_srem_iff (a b : Word) (hb : b ≠ 0) :
    a % b = a.srem b ↔
      (0 ≤ a.toInt ∧ 0 < b.toInt) ∨ a = b ∨ (0 ≤ a.toInt ∧ a.toInt < -b.toInt) ∨
        (0 < b.toInt ∧ b.toInt ∣ a.toInt ∧ b.toInt ∣ 2 ^ 32) := by
  have ha := a.isLt
  have hb' := b.isLt
  have hb0 : 0 < b.toNat := Nat.pos_of_ne_zero fun h => hb (BitVec.eq_of_toNat_eq h)
  simp only [BitVec.toInt_eq_toNat_cond, ← BitVec.toNat_inj, BitVec.toNat_umod]
  rw [BitVec.srem_eq]
  by_cases h : a.toNat < 2 ^ 31
  · by_cases h' : b.toNat < 2 ^ 31
    · simp only [msb_eq_false h, msb_eq_false h', BitVec.toNat_umod, true_iff]
      omega
    · simp only [msb_eq_false h, msb_eq_true h', BitVec.toNat_umod, toNat_neg_of_ne h',
        mod_pos_neg h (not_lt.mp h') hb']
      omega
  · by_cases h' : b.toNat < 2 ^ 31
    · have hdvd : ((b.toNat : Int) ∣ (a.toNat : Int) - 2 ^ 32) ↔ b.toNat ∣ 2 ^ 32 - a.toNat := by
        rw [← Int.natCast_dvd_natCast, ← Int.dvd_neg]
        exact iff_of_eq (congrArg _ (by omega))
      have hdvd' : ((b.toNat : Int) ∣ 2 ^ 32) ↔ b.toNat ∣ 2 ^ 32 := by
        rw [← Int.natCast_dvd_natCast]
        rfl
      simp only [msb_eq_true h, msb_eq_false h', BitVec.toNat_neg (_ % _), BitVec.toNat_umod,
        toNat_neg_of_ne h, mod_neg_pos (not_lt.mp h) ha hb0 h', ← hdvd, ← hdvd']
      rw [if_neg (by omega), if_pos (by omega), Nat.cast_pow, Nat.cast_ofNat]
      constructor
      · exact fun hd => .inr (.inr (.inr ⟨by omega, hd⟩))
      · rintro (hc | hc | hc | hc)
        · omega
        · omega
        · omega
        · exact hc.2
    · simp only [msb_eq_true h, msb_eq_true h', BitVec.toNat_neg (_ % _), BitVec.toNat_umod, toNat_neg_of_ne h,
        toNat_neg_of_ne h', mod_neg_neg (not_lt.mp h) ha (not_lt.mp h') hb']
      omega

/-! ## The generators -/

/-- What the generators emit once `vm_reg[0]` to `vm_reg[2]` hold the registers of rs1, rs2 and rd. -/
def genMulDiv (op : MulDiv) (sign : Bool) (v0 v1 v2 : X64.Reg) : Gen Unit := do
  emitMov v1 tempReg
  emitMov v0 v2
  muldivmod op tempReg v2 sign

def genDiv : X64.Reg → X64.Reg → X64.Reg → Gen Unit := genMulDiv .div true

def genDivu : X64.Reg → X64.Reg → X64.Reg → Gen Unit := genMulDiv .div false

def genRem : X64.Reg → X64.Reg → X64.Reg → Gen Unit := genMulDiv .mod true

def genRemu : X64.Reg → X64.Reg → X64.Reg → Gen Unit := genMulDiv .mod false

inductive Division
  | div | divu | rem | remu
  deriving DecidableEq, Repr

namespace Division

def gen : Division → X64.Reg → X64.Reg → X64.Reg → Gen Unit
  | .div => genDiv
  | .divu => genDivu
  | .rem => genRem
  | .remu => genRemu

/-- The value that the handler of the interpreter computes. -/
def value (a b : Word) : Division → Word
  | .div => divVal a b
  | .divu => divuVal a b
  | .rem => remVal a b
  | .remu => remuVal a b

/-- The operands for which the sequence is right. -/
def Right (a b : Word) : Division → Prop
  | .divu | .remu => True
  | .div => b = 0 ∨ b = -1 ∧ a = 0x80000000 ∨
      (0 ≤ a.toInt ∧ 0 < b.toInt) ∨ b = 1 ∨ a = b ∨ (0 ≤ a.toInt ∧ a.toInt < -b.toInt)
  | .rem => b = 0 ∨ b = -1 ∧ a = 0x80000000 ∨
      (0 ≤ a.toInt ∧ 0 < b.toInt) ∨ a = b ∨ (0 ≤ a.toInt ∧ a.toInt < -b.toInt) ∨
        (0 < b.toInt ∧ b.toInt ∣ a.toInt ∧ b.toInt ∣ 2 ^ 32)

instance (a b : Word) (d : Division) : Decidable (d.Right a b) := by
  cases d <;> unfold Right <;> infer_instance

end Division

/-- The corrections are made in another order than the handler makes them. -/
theorem corrected_eq_iff {α : Type} {zero overflow R : Prop} [Decidable zero] [Decidable overflow] {x y u v : α}
    (hne : zero → ¬ overflow) (h : ¬ zero → (u = v ↔ R)) :
    ((if overflow then y else if zero then x else u) = if zero then x else if overflow then y else v) ↔
      zero ∨ overflow ∨ R := by
  by_cases h0 : zero
  · rw [if_neg (hne h0), if_pos h0, if_pos h0]
    exact iff_of_true rfl (.inl h0)
  · by_cases h1 : overflow
    · rw [if_pos h1, if_neg h0, if_pos h1]
      exact iff_of_true rfl (.inr (.inl h1))
    · rw [if_neg h1, if_neg h0, if_neg h0, if_neg h1, h h0, or_iff_right h0, or_iff_right h1]

theorem lo_result_div (sign : Bool) (a b : BitVec 64) :
    lo (MulDiv.result sign a b .div) =
      if sign ∧ lo b = -1 ∧ lo a = 0x80000000 then lo a
      else if lo b = 0 then BitVec.allOnes 32 else lo a / lo b := by
  simp only [MulDiv.result, apply_ite lo, X64.lo_zx]
  rfl

theorem lo_result_mod (sign : Bool) (a b : BitVec 64) :
    lo (MulDiv.result sign a b .mod) =
      if sign ∧ lo b = -1 ∧ lo a = 0x80000000 then 0 else if lo b = 0 then lo a else lo a % lo b := by
  simp only [MulDiv.result, apply_ite lo, X64.lo_zx]
  rfl

namespace Division

variable (a b : BitVec 64)

theorem lo_result_div_iff : lo (MulDiv.result true a b .div) = divVal (lo a) (lo b) ↔ Right (lo a) (lo b) .div := by
  rw [lo_result_div]
  simp only [divVal, Right, true_and]
  exact corrected_eq_iff (fun h h1 => absurd (h.symm.trans h1.1) (by decide)) (udiv_eq_sdiv_iff _ _)

theorem lo_result_rem_iff : lo (MulDiv.result true a b .mod) = remVal (lo a) (lo b) ↔ Right (lo a) (lo b) .rem := by
  rw [lo_result_mod]
  simp only [remVal, Right, true_and]
  exact corrected_eq_iff (fun h h1 => absurd (h.symm.trans h1.1) (by decide)) (umod_eq_srem_iff _ _)

theorem lo_result_divu : lo (MulDiv.result false a b .div) = divuVal (lo a) (lo b) := by
  simp only [lo_result_div, divuVal, Bool.false_eq_true, false_and, if_false]

theorem lo_result_remu : lo (MulDiv.result false a b .mod) = remuVal (lo a) (lo b) := by
  simp only [lo_result_mod, remuVal, Bool.false_eq_true, false_and, if_false]

end Division

/-- The sequence behind the moves of the operands to the temporary register and the destination. -/
theorem exec_genMulDiv (op : MulDiv) (sign : Bool) (m : RegMap) (s : X64.State) (i0 i1 i2 : HostIdx) :
    ∃ s', (genMulDiv op sign (hostReg i0) (hostReg i1) (hostReg i2)).exec m s =
        some ((), m.setDirty (hostReg i2) true, s') ∧
      s'.regs (hostReg i2) = op.result sign (s.regs (hostReg i0)) (s.regs (hostReg i1)) ∧
      (∀ r, r ≠ hostReg i2 → r ≠ tempReg → s'.regs r = s.regs r) ∧ s'.stack = s.stack ∧ s'.mem = s.mem := by
  have hne : hostReg i2 ≠ .rcx := hostReg_ne_tempReg i2
  have hne0 : hostReg i0 ≠ .rcx := hostReg_ne_tempReg i0
  obtain ⟨s', hx, hv, hr, hst, hmem⟩ := computes op sign (m.setDirty (hostReg i2) true)
    ((s.set .rcx (s.regs (hostReg i1))).set (hostReg i2) (s.regs (hostReg i0))) i2
  rw [RegMap.setDirty_setDirty] at hx
  refine ⟨s', ?_, ?_, fun r h h' => ?_, hst, hmem⟩
  · simp only [genMulDiv, tempReg, Emitter.exec_bind, exec_emitMov, Option.bind_some, RegMap.setDirty_rcx,
      X64.State.set_regs, Function.update_of_ne hne0, hx]
  · simpa only [X64.State.set_regs, Function.update_self, Function.update_of_ne hne.symm] using hv
  · exact (hr r h h').trans ((Function.update_of_ne h ..).trans (Function.update_of_ne h' ..))

namespace Division

def op : Division → MulDiv
  | .div | .divu => .div
  | .rem | .remu => .mod

def signed : Division → Bool
  | .div | .rem => true
  | .divu | .remu => false

theorem gen_eq (d : Division) : d.gen = genMulDiv d.op d.signed := by
  cases d <;> rfl

theorem lo_result_iff (d : Division) (a b : BitVec 64) :
    lo (d.op.result d.signed a b) = d.value (lo a) (lo b) ↔ d.Right (lo a) (lo b) := by
  cases d with
  | div => exact lo_result_div_iff a b
  | rem => exact lo_result_rem_iff a b
  | divu => exact iff_of_true (lo_result_divu a b) trivial
  | remu => exact iff_of_true (lo_result_remu a b) trivial

end Division

/-- The sequence for a division runs to its end with the host stack as before; it changes the destination's register
and the temporary one, and the destination's entry of the register map. Its result is the interpreter's exactly on the
operands of `Right`. -/
theorem division_result (d : Division) (m : RegMap) (s : X64.State) (i0 i1 i2 : HostIdx) :
    ∃ code s', d.gen (hostReg i0) (hostReg i1) (hostReg i2) m = some ((), m.setDirty (hostReg i2) true, code) ∧
      X64.run code s = some s' ∧ s'.stack = s.stack ∧ s'.mem = s.mem ∧
      (∀ r, r ≠ hostReg i2 → r ≠ tempReg → s'.regs r = s.regs r) ∧
      (lo (s'.regs (hostReg i2)) = d.value (lo (s.regs (hostReg i0))) (lo (s.regs (hostReg i1))) ↔
        d.Right (lo (s.regs (hostReg i0))) (lo (s.regs (hostReg i1)))) := by
  obtain ⟨s', hx, hv, hr, hst, hmem⟩ := exec_genMulDiv d.op d.signed m s i0 i1 i2
  rw [← d.gen_eq] at hx
  obtain ⟨code, hcode, hrun⟩ := Emitter.exec_eq_some.mp hx
  exact ⟨code, s', hcode, hrun, hst, hmem, hr, by rw [hv]; exact d.lo_result_iff _ _⟩

/-- -6 / 2 and -6 / 3 -/
example : ¬ Division.Right (-6) 2 .div ∧ Division.Right (-6) 2 .rem ∧ ¬ Division.Right (-6) 3 .rem := by decide

end Rv32emu.Tier1
