import Rv32emu.AddressSpace
import Rv32emu.DecodeIsa

/-!
# What a CSR instruction reads and writes

* `CsrOp`, `Opcode.csrOp`, `Insn.csrOperand` : the six instructions as three operations on an operand;
* `CsrExec` : one execution of a CSR handler, in the user-mode build or a `SYSTEM` build;
  `CsrExec.effect`;
* `FpView` : the three views of `fcsr`; `csr_fpView_iff`;
* `IsCsrWord`, `ReadOnlyKept` : instruction words that name a read-only CSR; `readOnlyCsr_iff`.
-/

open StateRel

namespace Rv32emu

/-! ## Operations -/

/-- What a CSR instruction does with the old value and its operand. -/
inductive CsrOp
  | write | set | clear
  deriving DecidableEq, Repr

namespace CsrOp

def apply : CsrOp → Word → Word → Word
  | write, _, v => v
  | set, old, v => old ||| v
  | clear, old, v => old &&& ~~~v

/-- The bits of `old` that the operation changes with the operand `v`. -/
def changes : CsrOp → Word → Word → Word
  | write, old, v => v ^^^ old
  | set, old, v => v &&& ~~~old
  | clear, old, v => v &&& old

variable (op : CsrOp) (old v m : Word)

theorem apply_zero (h : op ≠ write) : op.apply old 0 = old := by
  cases op with
  | write => exact absurd rfl h
  | set => exact BitVec.or_zero
  | clear => exact BitVec.and_allOnes

end CsrOp

def Opcode.csrOp : Opcode → Option CsrOp
  | .csrrw | .csrrwi => some .write
  | .csrrs | .csrrsi => some .set
  | .csrrc | .csrrci => some .clear
  | _ => none

/-- The operand: `rs1` or `uimm`, which is decoded into `rs1`. -/
def Insn.csrOperand (ir : Insn) (x : Reg → Word) : Word :=
  match ir.opcode with
  | .csrrw => x ir.rs1
  | .csrrs | .csrrc => if ir.rs1 = regZero then 0 else x ir.rs1
  | _ => ir.rs1.setWidth 32

/-! ## Execution -/

/-- A CSR handler takes the machine from `s` to `s'`. `env` is where the clock is read and `cycle` the cycle
count that the handler has reached: in a `SYSTEM` build the clock is the cycle count and an offset. -/
inductive CsrExec (ir : Insn) : Env → BitVec 64 → Cpu → Cpu → Prop
  | user (env : Env) (lk : Links) (noNext : Bool) (cycle : BitVec 64) (pc : Word) (s : Cpu) :
    CsrExec ir env (cycle + 1) s (doRvop env ir lk noNext cycle pc s).cpu
  | system {env : SysEnv} {raise : Raise} {lk : Links} {noNext : Bool} {cycle : BitVec 64} {pc : Word}
      {s s' : Sys} {ctl : SysCtl} (h : sysImpl env raise ir lk noNext cycle pc s = some (ctl, s')) :
    CsrExec ir { env.toEnv with gettimeofday := fun _ => cycle + 1 + s.timerOffset } (cycle + 1) s.cpu s'.cpu

section Exec

variable {ir : Insn} {op : CsrOp} {env : Env} {cycle : BitVec 64} {s s' : Cpu}

theorem Opcode.csrOp_isCsr {o : Opcode} (h : o.csrOp = some op) : o.isCsr = true := by
  cases o <;> first
    | rfl
    | cases h

theorem rvop_csr (hop : ir.opcode.csrOp = some op) :
    ∃ f, rvop ir.opcode = .csr f ∧
      ∀ env x, f env ir x = csrUpdate env (fun old => op.apply old (ir.csrOperand x)) ir.imm := by
  unfold Insn.csrOperand
  cases hopc : ir.opcode <;> rw [hopc] at hop <;> first
    | cases hop; done
    | (cases hop; exact ⟨_, rfl, fun _ _ => rfl⟩)

theorem csrUpdate_pc (env : Env) (f : Word → Word) (csr : Word) (cycle : BitVec 64) (s : Cpu) (pc : Word) :
    csrUpdate env f csr cycle { s with PC := pc } =
      ((csrUpdate env f csr cycle s).1, { (csrUpdate env f csr cycle s).2 with PC := pc }) := by
  have hsync : csrSyncCycle { s with PC := pc } csr cycle = { csrSyncCycle s csr cycle with PC := pc } := by
    unfold csrSyncCycle
    split <;> rfl
  unfold csrUpdate
  rw [hsync]
  cases csrGetPtr csr with
  | none => rfl
  | some c => cases c <;> rfl

structure Cpu.SameRegs (cycle : BitVec 64) (s s' : Cpu) : Prop where
  X : s'.X = s.X
  fpu : s'.fpu = s.fpu
  csr : s'.csr = s.csr ∨ s'.csr = { s.csr with cycle }

theorem Cpu.SameRegs.trans {t : Cpu} (h : Cpu.SameRegs cycle s s') (h' : Cpu.SameRegs cycle s' t) :
    Cpu.SameRegs cycle s t where
  X := h'.X.trans h.X
  fpu := h'.fpu.trans h.fpu
  csr := by
    rcases h.csr with hc | hc <;> rcases h'.csr with hc' | hc' <;> rw [hc', hc] <;> first
      | exact .inl rfl
      | exact .inr rfl

theorem endOp_sameRegs (ir : Insn) (lk : Links) (cycle : BitVec 64) (pc : Word) (s : Cpu) :
    Cpu.SameRegs cycle s (endOp ir lk cycle pc s).cpu := by
  unfold endOp
  split
  · exact ⟨rfl, rfl, .inl rfl⟩
  · exact ⟨rfl, rfl, .inr rfl⟩

theorem sysEndOp_sameRegs {lk : Links} {pc : Word} {s s' : Sys} {ctl : SysCtl}
    (hrun : sysEndOp ir lk cycle pc s = some (ctl, s')) : Cpu.SameRegs cycle s.cpu s'.cpu := by
  obtain ⟨r, -, rfl⟩ | ⟨-, rfl⟩ := sysEndOp_cases hrun
  · exact ⟨rfl, rfl, .inl rfl⟩
  · exact ⟨rfl, rfl, .inr rfl⟩

theorem signalOr_nextop_sameRegs {lk : Links} {noNext : Bool} {pc : Word} {s s' : Sys} {ctl : SysCtl}
    (hrun : signalOr (sysNextop ir lk noNext cycle pc) s = some (ctl, s')) : Cpu.SameRegs cycle s.cpu s'.cpu := by
  change (if s.needHandleSignal = true then _ else _ : SysM SysCtl) s = _ at hrun
  split_ifs at hrun
  · cases hrun
    exact ⟨rfl, rfl, .inl rfl⟩
  change (if s.needClearBlockMap = true then _ else _ : SysM SysCtl) s = _ at hrun
  split_ifs at hrun
  · cases hrun
    exact ⟨rfl, rfl, .inr rfl⟩
  change (if (noNext || s.isTrapped) = true then _ else _ : SysM SysCtl) s = _ at hrun
  split_ifs at hrun
  · exact sysEndOp_sameRegs hrun
  · cases hrun
    exact ⟨rfl, rfl, .inl rfl⟩

/-- The code of a `SYSTEM` handler, up to `rv->PC`. -/
theorem csrEffect_sameRegs {env : SysEnv} {f : Env → Insn → (Reg → Word) → BitVec 64 → Cpu → Word × Cpu}
    {g : (Reg → Word) → Word → Word} (hfun : ∀ env x, f env ir x = csrUpdate env (g x) ir.imm)
    (cycle : BitVec 64) (pc : Word) (s : Sys) :
    let r := csrUpdate { env.toEnv with gettimeofday := fun _ => cycle + s.timerOffset } (g s.cpu.X) ir.imm cycle
      s.cpu
    Cpu.SameRegs cycle (r.2.setXNz ir.rd r.1) (csrEffect env ir f cycle pc s).cpu := by
  intro r
  have hr : f { env.toEnv with gettimeofday := fun _ => cycle + s.timerOffset } ir s.cpu.X cycle
      { s.cpu with PC := pc } = (r.1, { r.2 with PC := pc }) :=
    (congrFun (congrFun (hfun _ _) _) _).trans (csrUpdate_pc _ _ _ _ _ _)
  unfold csrEffect
  simp only [csrSideEffects_cpu, hr]
  unfold Cpu.setXNz
  split_ifs
  · exact ⟨rfl, rfl, .inl rfl⟩
  · exact ⟨rfl, rfl, .inl rfl⟩

/-- **A CSR handler is one update**, whatever build it runs in and however it ends. -/
theorem CsrExec.effect (hop : ir.opcode.csrOp = some op) (h : CsrExec ir env cycle s s') :
    Cpu.SameRegs cycle
      ((csrUpdate env (fun old => op.apply old (ir.csrOperand s.X)) ir.imm cycle s).2.setXNz ir.rd
        (csrUpdate env (fun old => op.apply old (ir.csrOperand s.X)) ir.imm cycle s).1) s' := by
  obtain ⟨f, hf, hfun⟩ := rvop_csr hop
  cases h with
  | user env lk noNext cycle pc s =>
    unfold doRvop
    rw [hf]
    simp only [Code.exec, hfun]
    cases noNext with
    | false => exact ⟨rfl, rfl, .inl rfl⟩
    | true => exact endOp_sameRegs _ _ _ _ _
  | @system env raise lk noNext cycle pc s s' ctl h =>
    obtain ⟨g, hg, hrun⟩ := sysImpl_csrEffect (Opcode.csrOp_isCsr hop) h
    obtain rfl : f = g := by
      rw [hf] at hg
      exact Code.csr.inj hg
    exact (csrEffect_sameRegs hfun (cycle + 1) pc s).trans (signalOr_nextop_sameRegs hrun)

end Exec

/-! ## The views of `fcsr` -/

/-- The CSR numbers of `fcsr` and of its two fields. -/
inductive FpView
  | fflags | frm | fcsr
  deriving DecidableEq, Repr

namespace FpView

/-- `CSR_FFLAGS`, `CSR_FRM` and `CSR_FCSR`. -/
def number : FpView → Word
  | fflags => 0x001
  | frm => 0x002
  | fcsr => 0x003

/-- The bits of `fcsr` that belong to the view. -/
def mask : FpView → Word
  | fflags => 0x1f
  | frm => 0xe0
  | fcsr => 0xff

def shift : FpView → Nat
  | frm => 5
  | fflags | fcsr => 0

/-- The field of the register value `f`. -/
def read (v : FpView) (f : Word) : Word := (f &&& v.mask) >>> v.shift

/-- `f` with `x` in the field. -/
def write (v : FpView) (f x : Word) : Word := (f &&& ~~~v.mask) ||| (x <<< v.shift &&& v.mask)

/-- The instruction has accessed the field and nothing else: `rd` is the old field, the new field is what
the operation makes of it, the other bits are as before. -/
structure Accessed (v : FpView) (ir : Insn) (op : CsrOp) (s s' : Cpu) : Prop where
  rd : ir.rd ≠ 0 → s'.X ir.rd = v.read s.fpu.fcsr
  fcsr : s'.fpu.fcsr = v.write s.fpu.fcsr (op.apply (v.read s.fpu.fcsr) (ir.csrOperand s.X))

/-- What an access through the view must not touch or would have to touch: above `fflags` and above `fcsr`
the operation changes nothing and is not read; `frm` is neither changed nor read as anything but 0. -/
def Harmless (v : FpView) (op : CsrOp) (rd : Reg) (f x : Word) : Prop :=
  match v with
  | fflags => op.changes f x &&& ~~~0x1f = 0
  | frm => op.changes f (x <<< 5) &&& 0xe0 = 0 ∧ (rd = 0 ∨ f &&& 0xe0 = 0)
  | fcsr => op.changes f x &&& ~~~0xff = 0 ∧ (rd = 0 ∨ f &&& ~~~0xff = 0)

end FpView

namespace CsrOp

variable (op : CsrOp) (f x m : Word)

/-- An operation on the whole register stays inside the field iff it changes no other bit. -/
theorem apply_eq_field_iff :
    op.apply f x = (f &&& ~~~m) ||| (op.apply (f &&& m) x &&& m) ↔ op.changes f x &&& ~~~m = 0 := by
  rw [BitVec.eq_of_getLsbD_eq_iff, BitVec.eq_of_getLsbD_eq_iff]
  refine forall_congr' fun i => forall_congr' fun hi => ?_
  cases op <;> simp only [apply, changes, BitVec.getLsbD_xor, BitVec.getLsbD_and, BitVec.getLsbD_or,
    BitVec.getLsbD_not, BitVec.ofNat_eq_ofNat, BitVec.getLsbD_zero, hi, decide_true] <;>
    cases f.getLsbD i <;> cases x.getLsbD i <;> cases m.getLsbD i <;> decide

/-- Leaving the register alone is the operation on the field iff it changes no bit of the field. -/
theorem eq_field_iff : f = (f &&& ~~~m) ||| (op.apply (f &&& m) x &&& m) ↔ op.changes f x &&& m = 0 := by
  rw [BitVec.eq_of_getLsbD_eq_iff, BitVec.eq_of_getLsbD_eq_iff]
  refine forall_congr' fun i => forall_congr' fun hi => ?_
  cases op <;> simp only [apply, changes, BitVec.getLsbD_xor, BitVec.getLsbD_and, BitVec.getLsbD_or,
    BitVec.getLsbD_not, BitVec.ofNat_eq_ofNat, BitVec.getLsbD_zero, hi, decide_true] <;>
    cases f.getLsbD i <;> cases x.getLsbD i <;> cases m.getLsbD i <;> decide

theorem apply_shiftLeft (n : Nat) : op.apply f x <<< n = op.apply (f <<< n) (x <<< n) := by
  apply BitVec.eq_of_getLsbD_eq
  intro i hi
  cases op <;> simp only [apply, BitVec.getLsbD_shiftLeft, BitVec.getLsbD_and, BitVec.getLsbD_or,
    BitVec.getLsbD_not, hi, show i - n < 32 by omega, decide_true, Bool.true_and] <;>
    cases decide (i < n) <;> simp

end CsrOp

/-- The field of `frm`, in its place. -/
theorem and_frm_shift (f : Word) : (f &&& 0xe0) >>> 5 <<< 5 = f &&& 0xe0 := by
  apply BitVec.eq_of_getLsbD_eq
  intro i hi
  simp only [BitVec.getLsbD_shiftLeft, BitVec.getLsbD_ushiftRight, BitVec.getLsbD_and]
  interval_cases i <;> simp

namespace FpView

variable {v : FpView} {ir : Insn} {op : CsrOp} {env : Env} {cycle : BitVec 64} {s s' : Cpu}

theorem setXNz_fpu (s : Cpu) (rd : Reg) (x : Word) : (s.setXNz rd x).fpu = s.fpu := by
  unfold Cpu.setXNz
  split_ifs <;> rfl

theorem setXNz_X {rd : Reg} (h : rd ≠ 0) (s : Cpu) (x : Word) : (s.setXNz rd x).X rd = x := by
  unfold Cpu.setXNz Cpu.setX
  rw [if_pos h]
  exact Function.update_self _ _ _

theorem accessed_iff (hop : ir.opcode.csrOp = some op) (himm : ir.imm = v.number) (h : CsrExec ir env cycle s s')
    {out : Word} {t : Cpu}
    (hr : csrUpdate env (fun old => op.apply old (ir.csrOperand s.X)) v.number cycle s = (out, t)) :
    v.Accessed ir op s s' ↔
      t.fpu.fcsr = v.write s.fpu.fcsr (op.apply (v.read s.fpu.fcsr) (ir.csrOperand s.X)) ∧
        (ir.rd = 0 ∨ out = v.read s.fpu.fcsr) := by
  obtain ⟨hX, hfpu, -⟩ := h.effect hop
  rw [himm, hr] at hX hfpu
  rw [setXNz_fpu] at hfpu
  have hrd : (ir.rd ≠ 0 → s'.X ir.rd = v.read s.fpu.fcsr) ↔ (ir.rd = 0 ∨ out = v.read s.fpu.fcsr) := by
    rw [or_iff_not_imp_left]
    refine forall_congr' fun hne => ?_
    rw [hX, setXNz_X hne]
  rw [← hrd, ← hfpu]
  exact ⟨fun ha => ⟨ha.fcsr, ha.rd⟩, fun ha => ⟨ha.2, ha.1⟩⟩

/-- The bits above a field are 0 iff cutting them off changes nothing. -/
theorem eq_and_iff (f m : Word) : f = f &&& m ↔ f &&& ~~~m = 0 := by
  rw [BitVec.eq_of_getLsbD_eq_iff, BitVec.eq_of_getLsbD_eq_iff]
  refine forall_congr' fun i => forall_congr' fun hi => ?_
  simp only [BitVec.getLsbD_and, BitVec.getLsbD_not, BitVec.ofNat_eq_ofNat, BitVec.getLsbD_zero, hi, decide_true]
  cases f.getLsbD i <;> cases m.getLsbD i <;> decide

/-- `frm` reads as 0 iff the field is 0. -/
theorem zero_eq_shift_iff (f : Word) : 0 = (f &&& 0xe0) >>> 5 ↔ f &&& 0xe0 = 0 := by
  constructor
  · intro h
    rw [← and_frm_shift, ← h]
    rfl
  · intro h
    rw [h]
    rfl

end FpView

/-- **When an access through a view of `fcsr` is one.** In every build and for all six instructions. -/
theorem csr_fpView_iff (v : FpView) {ir : Insn} {op : CsrOp} {env : Env} {cycle : BitVec 64} {s s' : Cpu}
    (hop : ir.opcode.csrOp = some op) (himm : ir.imm = v.number) (h : CsrExec ir env cycle s s') :
    v.Accessed ir op s s' ↔ v.Harmless op ir.rd s.fpu.fcsr (ir.csrOperand s.X) := by
  cases v with
  | fflags =>
    rw [FpView.accessed_iff hop himm h rfl]
    unfold FpView.write FpView.read FpView.shift
    simp only [BitVec.ushiftRight_zero, BitVec.shiftLeft_zero]
    exact (and_iff_left (.inr rfl)).trans (op.apply_eq_field_iff _ _ 0x1f)
  | frm =>
    rw [FpView.accessed_iff hop himm h rfl]
    refine and_congr ?_ (or_congr_right (FpView.zero_eq_shift_iff _))
    unfold FpView.write FpView.read FpView.mask FpView.shift
    simp only
    rw [CsrOp.apply_shiftLeft, and_frm_shift]
    exact op.eq_field_iff _ _ 0xe0
  | fcsr =>
    rw [FpView.accessed_iff hop himm h rfl]
    unfold FpView.write FpView.read FpView.shift
    simp only [BitVec.ushiftRight_zero, BitVec.shiftLeft_zero]
    exact and_congr (op.apply_eq_field_iff _ _ 0xff) (or_congr_right (FpView.eq_and_iff _ 0xff))

/-- `csrrwi x0, fflags, 0`. -/
def clearFflags : Insn := { opcode := .csrrwi, imm := 0x001 }

/-- A machine with `fcsr` as given. -/
def withFcsr (f : Word) : Cpu :=
  { Cpu.zero fun _ => 0 with fpu := { (Cpu.zero fun _ => 0).fpu with fcsr := f } }

/-- With `frm` 0 the flags alone are cleared. -/
theorem csr_fpView_iff_clear :
    FpView.fflags.Accessed clearFflags .write (withFcsr 0x1f)
        (doRvop (Env.bare true) clearFflags {} true 0 0 (withFcsr 0x1f)).cpu ↔
      FpView.fflags.Harmless .write 0 0x1f 0 :=
  csr_fpView_iff .fflags rfl rfl (.user (Env.bare true) {} true 0 0 (withFcsr 0x1f))

/-- `csrrwi x0, fflags, 0` clears the rounding mode 3 with the flags. -/
theorem fflags_corrupts_frm :
    rvDecode true 0x00105073 = .ok clearFflags ∧
      (doRvop (Env.bare true) clearFflags {} true 0 0 (withFcsr 0x60)).cpu.fpu.fcsr = 0 ∧
      CsrExec clearFflags (Env.bare true) 1 (withFcsr 0x60)
        (doRvop (Env.bare true) clearFflags {} true 0 0 (withFcsr 0x60)).cpu ∧
      ¬ FpView.fflags.Accessed clearFflags .write (withFcsr 0x60)
        (doRvop (Env.bare true) clearFflags {} true 0 0 (withFcsr 0x60)).cpu := by
  refine ⟨by decide, by decide, .user (Env.bare true) {} true 0 0 (withFcsr 0x60), fun h => ?_⟩
  exact absurd h.fcsr (by decide)

/-! ## Read-only CSRs -/

/-- The word of a CSR instruction: `SYSTEM` with a `funct3` that is neither 0 nor 4. -/
def IsCsrWord (insn : Word) : Prop :=
  insn &&& 0x7f = 0x73 ∧ decodeFunct3 insn ≠ 0 ∧ decodeFunct3 insn ≠ 4
  deriving Decidable

/-- `csr`, the bits 31:20. -/
def csrNumber (insn : Word) : BitVec 12 := insn.extractLsb' 20 12

/-- `csrrw` or `csrrwi`. -/
def IsCsrWrite (insn : Word) : Prop := decodeFunct3 insn = 1 ∨ decodeFunct3 insn = 5
  deriving Decidable

/-- The instruction writes its CSR: `csrrw` and `csrrwi` always, the others unless `rs1` or `uimm` is 0. -/
def WritesCsr (insn : Word) : Prop := IsCsrWrite insn ∨ decodeRs1 insn ≠ 0
  deriving Decidable

/-- A word that names a read-only CSR: executed, it leaves what is stored there as it is, up to the
synchronisation of the counters; it is refused if it would write. -/
structure ReadOnlyKept (system extC : Bool) (ir : Insn) (insn : Word) : Prop where
  kept : ∀ ir', rvDecodeInto system extC ir insn = .ok ir' → ∀ c, csrGetPtr ir'.imm = some c →
    ∀ env cycle s s', CsrExec ir' env cycle s s' →
      csrRead s' c = csrRead (csrTouch env (csrSyncCycle s ir'.imm cycle) c) c
  refused : WritesCsr insn → ∃ ir', rvDecodeInto system extC ir insn = .illegal ir'

section ReadOnly

variable {system extC : Bool} {ir : Insn} {insn : Word}

theorem decodeItypeImm_eq (insn : Word) : decodeItypeImm insn = (csrNumber insn).signExtend 32 := by
  unfold decodeItypeImm csrNumber
  apply BitVec.eq_of_getLsbD_eq
  intro i hi
  simp only [BitVec.getLsbD_sshiftRight, BitVec.getLsbD_and, BitVec.getLsbD_signExtend, BitVec.getLsbD_extractLsb',
    BitVec.msb_eq_getLsbD_last]
  interval_cases i <;> simp

/-- A CSR word is not compressed and goes to `op_system`. -/
theorem rvDecodeInto_csr (h : IsCsrWord insn) : rvDecodeInto system extC ir insn = opSystem system ir insn := by
  obtain ⟨hlow, -, -⟩ := h
  have hcompressed : isCompressed insn = false := by
    have : insn &&& 3 = 3 := by
      calc insn &&& 3 = insn &&& 0x7f &&& 3 := by rw [BitVec.and_assoc]; rfl
        _ = 3 := by rw [hlow]; rfl
    simpa [isCompressed] using this
  have hopc : insn.extractLsb' 2 5 = 0b11100 := by
    calc insn.extractLsb' 2 5 = (insn &&& 0x7f).extractLsb' 2 5 := by
          apply BitVec.eq_of_getLsbD_eq
          intro i hi
          simp only [BitVec.getLsbD_extractLsb', BitVec.getLsbD_and]
          interval_cases i <;> simp
      _ = 0b11100 := by rw [hlow]; rfl
  unfold rvDecodeInto rvJumpTable
  rw [hcompressed, hopc, Bool.and_false]
  rfl

/-- The instruction that `funct3` selects. -/
theorem opcodeOfSystem_csrOp (system : Bool) (h : IsCsrWord insn) (imm : Word) : ∃ op cop,
    opcodeOfSystem system insn imm (decodeFunct3 insn) = some op ∧ op.csrOp = some cop ∧
      (cop = .write ↔ IsCsrWrite insn) := by
  obtain ⟨-, h0, h4⟩ := h
  unfold IsCsrWrite
  have hlt : decodeFunct3 insn < 8 := (insn.extractLsb' 12 3).isLt
  generalize decodeFunct3 insn = n at h0 h4 hlt ⊢
  interval_cases n
  · exact absurd rfl h0
  · exact ⟨.csrrw, .write, rfl, rfl, by decide⟩
  · exact ⟨.csrrs, .set, rfl, rfl, by decide⟩
  · exact ⟨.csrrc, .clear, rfl, rfl, by decide⟩
  · exact absurd rfl h4
  · exact ⟨.csrrwi, .write, rfl, rfl, by decide⟩
  · exact ⟨.csrrsi, .set, rfl, rfl, by decide⟩
  · exact ⟨.csrrci, .clear, rfl, rfl, by decide⟩

/-- `csrrs` and `csrrc` have the operand 0 with `rs1` or `uimm` 0. -/
theorem csrOperand_zero {ir : Insn} {cop : CsrOp} (hop : ir.opcode.csrOp = some cop) (hne : cop ≠ .write)
    (hrs1 : ir.rs1 = 0) (x : Reg → Word) : ir.csrOperand x = 0 := by
  unfold Insn.csrOperand
  rw [hrs1]
  cases hopc : ir.opcode <;> rw [hopc] at hop <;> first
    | rfl
    | exact absurd (Option.some.inj hop).symm hne

theorem csrWrite_csrRead (s : Cpu) (c : CsrPtr) : csrWrite s (csrRead s c) c = s := by
  have hjoin : ∀ x : BitVec 64, ((x >>> 32).setWidth 32 ++ x.setWidth 32 : BitVec 64) = x := by
    intro x
    apply BitVec.eq_of_getLsbD_eq
    intro i hi
    simp only [BitVec.getLsbD_append, BitVec.getLsbD_setWidth, BitVec.getLsbD_ushiftRight]
    by_cases hlow : i < 32
    · simp [hlow]
    · simp [hlow, show i - 32 < 32 by omega, show 32 + (i - 32) = i by omega]
  cases c with
  | cycle | cycleh =>
    unfold csrWrite csrRead
    simp only [hjoin]
  | _ => rfl

/-- The counters are synchronised before they are read. -/
theorem csrSyncCycle_cycle {csr : Word} {c : CsrPtr} (hc : csrGetPtr csr = some c) (h : c = .cycle ∨ c = .cycleh)
    (s : Cpu) (cycle : BitVec 64) : (csrSyncCycle s csr cycle).csr.cycle = cycle := by
  unfold csrGetPtr at hc
  unfold csrSyncCycle
  generalize (csr &&& 0xfff).toNat = n at hc ⊢
  split at hc <;> first
    | rfl
    | (cases hc; done)
    | (cases hc; rcases h with h | h <;> cases h)

/-- The end of a handler keeps what the access has left. -/
theorem Cpu.SameRegs.csrRead {cycle : BitVec 64} {s s' : Cpu} (h : Cpu.SameRegs cycle s s') {c : CsrPtr}
    (hcycle : c = .cycle ∨ c = .cycleh → s.csr.cycle = cycle) : csrRead s' c = csrRead s c := by
  obtain ⟨-, hfpu, hcsr⟩ := h
  have hsame : s'.csr = s.csr → Rv32emu.csrRead s' c = Rv32emu.csrRead s c := by
    intro he
    unfold Rv32emu.csrRead
    rw [he, hfpu]
  rcases hcsr with hcsr | hcsr
  · exact hsame hcsr
  · by_cases hc : c = .cycle ∨ c = .cycleh
    · refine hsame (hcsr.trans ?_)
      rw [← hcycle hc]
    · unfold Rv32emu.csrRead
      rw [hcsr, hfpu]
      cases c <;> first
        | rfl
        | exact absurd (.inl rfl) hc
        | exact absurd (.inr rfl) hc

/-- **A CSR handler with nothing to change** leaves the register as it is, up to the synchronisation. -/
theorem CsrExec.kept {cop : CsrOp} (hop : ir.opcode.csrOp = some cop) (hne : cop ≠ .write) (hrs1 : ir.rs1 = 0)
    {c : CsrPtr} (hc : csrGetPtr ir.imm = some c) {env : Env} {cycle : BitVec 64} {s s' : Cpu}
    (h : CsrExec ir env cycle s s') :
    csrRead s' c = csrRead (csrTouch env (csrSyncCycle s ir.imm cycle) c) c := by
  have heff := h.effect hop
  rw [csrOperand_zero hop hne hrs1] at heff
  have hupdate : csrUpdate env (fun old => cop.apply old 0) ir.imm cycle s =
      (if ir.imm = 1 then csrRead (csrTouch env (csrSyncCycle s ir.imm cycle) c) c &&& 0x1f
        else csrRead (csrTouch env (csrSyncCycle s ir.imm cycle) c) c,
        csrTouch env (csrSyncCycle s ir.imm cycle) c) := by
    unfold csrUpdate
    simp only [hc, cop.apply_zero _ hne, csrWrite_csrRead]
  rw [hupdate] at heff
  have hset : ∀ (t : Cpu) (rd : Reg) (v : Word), csrRead (t.setXNz rd v) c = csrRead t c ∧
      (t.setXNz rd v).csr = t.csr := by
    intro t rd v
    unfold Cpu.setXNz
    split_ifs
    · cases c <;> exact ⟨rfl, rfl⟩
    · exact ⟨rfl, rfl⟩
  rw [heff.csrRead, (hset _ _ _).1]
  intro hcycle
  rw [(hset _ _ _).2]
  have htouch : ∀ t : Cpu, (csrTouch env t c).csr.cycle = t.csr.cycle := by
    intro t
    cases c <;> rfl
  rw [htouch, csrSyncCycle_cycle hc hcycle]

/-- **Which words that name a read-only CSR keep it read-only**: all but `csrrw` from `x0` and `csrrwi`
with 0, which are executed. -/
theorem readOnlyCsr_iff (system extC : Bool) (ir : Insn) (h : IsCsrWord insn)
    (hro : 0xc00 ≤ (csrNumber insn).toNat) :
    ReadOnlyKept system extC ir insn ↔ ¬ (IsCsrWrite insn ∧ decodeRs1 insn = 0) := by
  obtain ⟨op, cop, hsel, hop, hwrite⟩ := opcodeOfSystem_csrOp system h (decodeItypeImm insn)
  have hdec : rvDecodeInto system extC ir insn =
      if decodeRs1 insn = 0 then .ok { decodeItype ir insn with opcode := op }
      else .illegal { decodeItype ir insn with opcode := op } := by
    rw [rvDecodeInto_csr h, opSystem]
    have himm : (decodeItype ir insn).imm = decodeItypeImm insn := rfl
    have hwritable : csrIsWritable (decodeItypeImm insn) = false := by
      rw [decodeItypeImm_eq, csrIsWritable_signExtend]
      exact decide_eq_false (by omega)
    simp only [himm, hsel, hwritable, Bool.false_or, decide_eq_true_eq]
    rfl
  constructor
  · rintro hkept ⟨hw, hrs1⟩
    obtain ⟨ir', hillegal⟩ := hkept.refused (.inl hw)
    rw [hdec, if_pos hrs1] at hillegal
    cases hillegal
  · intro hno
    refine ⟨?_, ?_⟩
    · intro ir' hok c hc env cycle s s' hexec
      rw [hdec] at hok
      split_ifs at hok with hrs1
      obtain rfl := Decoded.ok.inj hok
      have hne : cop ≠ .write := fun he => hno ⟨hwrite.mp he, hrs1⟩
      exact hexec.kept hop hne hrs1 hc
    · rintro (hw | hrs1)
      · exact ⟨_, hdec.trans (if_neg fun hrs1 => hno ⟨hw, hrs1⟩)⟩
      · exact ⟨_, hdec.trans (if_neg hrs1)⟩

end ReadOnly

/-- `csrrs x0, cycle, x0`. -/
theorem readOnlyCsr_iff_rdcycle :
    IsCsrWord 0xc0002073 ∧ 0xc00 ≤ (csrNumber 0xc0002073).toNat ∧
      (ReadOnlyKept false true {} 0xc0002073 ↔ ¬ (IsCsrWrite 0xc0002073 ∧ decodeRs1 0xc0002073 = 0)) := by
  have hword : IsCsrWord 0xc0002073 := by decide
  exact ⟨hword, by decide, readOnlyCsr_iff false true {} hword (by decide)⟩

/-- `csrrwi x0, cycle, 0` is accepted, and puts 0 into the counter. -/
theorem csrrwi_cycle_accepted :
    IsCsrWord 0xc0005073 ∧ csrNumber 0xc0005073 = 0xc00 ∧ WritesCsr 0xc0005073 ∧
      rvDecodeInto false true {} 0xc0005073 = .ok { opcode := .csrrwi, imm := 0xfffffc00 } ∧
      (doRvop (Env.bare true) { opcode := .csrrwi, imm := 0xfffffc00 } {} false 5 0 (Cpu.zero fun _ => 0)).cpu.csr.cycle
        = 0 ∧
      ¬ ReadOnlyKept false true {} 0xc0005073 := by
  have hok : rvDecodeInto false true {} 0xc0005073 = .ok { opcode := .csrrwi, imm := 0xfffffc00 } := by decide
  refine ⟨by decide, by decide, by decide, hok, by decide, fun h => ?_⟩
  obtain ⟨ir, hillegal⟩ := h.refused (.inl (.inr (by decide)))
  rw [hok] at hillegal
  cases hillegal

end Rv32emu
