import Rv32emu.BlockHistory
import Rv32emu.FusionSound
import Rv32emu.IllegalInsn
import Rv32emu.NodeStep

/-!
# Which steps write `x0`

Most decoders turn a node with destination `x0` into a `nop`, and several handlers test `rd`. The
loads and `c.li` do neither, alone, in a fused node, or when a misaligned load is emulated.

* `Insn.loadWrites` : the registers that the loads and `c.li` of a node write, with the values;
* `Insn.GuardsX0` : no other write of the node has destination `x0`, which holds of every node of a
  translated block (`rvDecode_guardsX0`, `GuardsX0.constopt`, `FusedFrom.guardsX0`);
* `impl_x0` : what a handler leaves in `x0`;
* `x0_zero_iff` : along a run `x0` stays 0 exactly as long as `loadWrites` leaves it 0.
-/

namespace Rv32emu

/-! ## The writes -/

/-- The value `emulate_misaligned_load` stores; `none` where it returns `false`. -/
def misalignedLoadVal (s : Cpu) (addr : Word) : Opcode → Option Word
  | .lw | .clw | .clwsp => some (
      if addr &&& 1 = 0 then
        (s.memReadS addr).setWidth 32 ||| (s.memReadS (addr + 2)).setWidth 32 <<< 16
      else
        (s.memReadB addr).setWidth 32 ||| (s.memReadB (addr + 1)).setWidth 32 <<< 8 |||
          (s.memReadB (addr + 2)).setWidth 32 <<< 16 ||| (s.memReadB (addr + 3)).setWidth 32 <<< 24)
  | .lh => some (signExtendH
      ((s.memReadB addr).setWidth 32 ||| (s.memReadB (addr + 1)).setWidth 32 <<< 8))
  | .lhu => some ((s.memReadB addr).setWidth 32 ||| (s.memReadB (addr + 1)).setWidth 32 <<< 8)
  | _ => none

theorem emulateMisalignedLoad_eq (s : Cpu) (ir : Insn) (addr : Word) :
    emulateMisalignedLoad s ir addr = (misalignedLoadVal s addr ir.opcode).map (s.setX ir.rd) := by
  unfold emulateMisalignedLoad misalignedLoadVal
  split <;> simp_all

/-- The register write of `rv_trap_default_handler` for a load from `addr`: it re-decodes the
instruction at `pc`. -/
def emulatedAt (env : Env) (s : Cpu) (pc addr : Word) : List (Reg × Word) :=
  if s.ifetch pc = 0 then []
  else match rvDecode env.extC (s.ifetch pc) with
    | .ok ir => ((misalignedLoadVal s addr ir.opcode).map (ir.rd, ·)).toList
    | _ => []

/-- The register write that follows a load from `addr` found misaligned with `rv->PC` at `pc`. -/
def emulatedWrite (env : Env) (s : Cpu) (pc addr : Word) : List (Reg × Word) :=
  if s.isUOrSMode ∨ s.csr.mtvec ≠ 0 then [] else emulatedAt env s pc addr

/-- The register write of a load, possibly emulated. -/
def loadWrite (env : Env) (s : Cpu) (pc mask addr : Word) (w : List (Reg × Word)) : List (Reg × Word) :=
  if misaligned env mask addr then emulatedWrite env s pc addr else w

def fuseLwWrites (env : Env) (pc : Word) : List OpcodeFuse → Cpu → List (Reg × Word)
  | [], _ => []
  | f :: fs, s =>
    let addr := s.X f.rs1 + f.imm
    loadWrite env s pc 3 addr
      ((f.rd, s.memReadW addr) :: fuseLwWrites env pc fs (s.setX f.rd (s.memReadW addr)))

/-- The register writes of the load in a handler body, if there is one. `lr.w` and the atomic
operations test `rd`, and `flw` writes no integer register, unless they are emulated. -/
def Code.loadWrites (env : Env) (ir : Insn) (pc : Word) (s : Cpu) : Code → List (Reg × Word)
  | .load _ mask addr read => loadWrite env s pc mask (addr ir s.X) [(ir.rd, read s (addr ir s.X))]
  | .lrw | .amo _ => loadWrite env s pc 3 (s.X ir.rs1) []
  | .flw addr => loadWrite env s pc 3 (addr ir s.X) []
  | _ => []

/-- The registers that the loads and `c.li` of a node write when it is run at `pc`, in order. -/
def Insn.loadWrites (env : Env) (ir : Insn) (pc : Word) (s : Cpu) : List (Reg × Word) :=
  match ir.opcode with
  | .cli => [(ir.rd, ir.imm)]
  | .fuse4 => fuseLwWrites env pc (ir.fuse.take ir.imm2.toNat) s
  | .fuse9 =>
    let addr := ir.imm + ir.imm2
    loadWrite env s pc 3 addr [(ir.rs2, s.memReadW addr)]
  | .fuse11 =>
    let addr := s.X ir.rs1 + ir.imm
    loadWrite env s pc 3 addr [(ir.rd, s.memReadW addr)]
  | op => (rvop op).loadWrites env ir pc s

/-- The value that a list of register writes leaves in `x0`. -/
def lastX0 (ws : List (Reg × Word)) (v : Word) : Word :=
  ws.foldl (fun v w => if w.1 = regZero then w.2 else v) v

@[simp] theorem lastX0_nil (v : Word) : lastX0 [] v = v := rfl

@[simp] theorem lastX0_cons (r : Reg) (w : Word) (ws : List (Reg × Word)) (v : Word) :
    lastX0 ((r, w) :: ws) v = lastX0 ws (if r = regZero then w else v) := rfl

/-! ## Traps -/

theorem Cpu.setX_x0 (s : Cpu) (r : Reg) (v : Word) :
    (s.setX r v).X regZero = if r = regZero then v else s.X regZero := by
  by_cases hr : r = regZero
  · subst hr
    simp
  · rw [if_neg hr, Cpu.setX_of_ne s (Ne.symm hr)]

theorem Cpu.setXNz_x0 (s : Cpu) (r : Reg) (v : Word) : (s.setXNz r v).X regZero = s.X regZero := by
  unfold Cpu.setXNz
  split
  · rename_i hr
    rw [Cpu.setX_x0, if_neg hr]
  · rfl

theorem vectorTo_X (base mode cause : Word) (s : Cpu) : (vectorTo base mode cause s).X = s.X := by
  unfold vectorTo
  split_ifs <;> rfl

theorem emulateMisalignedStore_X {s s' : Cpu} {ir : Insn} {addr : Word}
    (h : emulateMisalignedStore s ir addr = some s') : s'.X = s.X := by
  unfold emulateMisalignedStore at h
  simp only at h
  split at h
  case h_4 =>
    cases h
    rfl
  case h_5 => cases h
  all_goals
    split_ifs at h
    all_goals
      cases h
      rfl

/-- Only the emulation of a load writes a register. -/
theorem trapDefaultHandler_X (env : Env) {s : Cpu} (h : s.csr.mcause ≠ Cause.loadMisaligned.code) :
    (trapDefaultHandler env s).X = s.X := by
  unfold trapDefaultHandler
  split
  · simp only
    split
    · rfl
    · split
      · rfl
      · rfl
      · rename_i ir _
        rcases hst : emulateMisalignedStore s ir s.csr.mtval with _ | s'
        · rfl
        · exact (emulateMisalignedStore_X hst : s'.X = s.X)
  · rfl

theorem raise_X (env : Env) {cause : Cause} (hcause : cause ≠ .loadMisaligned) (tval : Word) (s : Cpu) :
    (raise env cause tval s).X = s.X := by
  unfold raise trapHandler setCauseAndTval
  by_cases hmode : s.isUOrSMode = true
  · rw [if_pos hmode, if_pos (by exact hmode), vectorTo_X]
    rfl
  · rw [if_neg hmode, if_neg (by exact hmode)]
    split
    · rw [trapDefaultHandler_X]
      · rfl
      · change cause.code ≠ _
        cases cause <;> first | decide | exact absurd rfl hcause
    · rw [vectorTo_X]
      rfl

theorem trapDefaultHandler_load_x0 (env : Env) {s : Cpu}
    (h : s.csr.mcause = Cause.loadMisaligned.code) :
    (trapDefaultHandler env s).X regZero =
      lastX0 (emulatedAt env s s.csr.mepc s.csr.mtval) (s.X regZero) := by
  unfold trapDefaultHandler emulatedAt
  rw [if_pos (.inl h)]
  by_cases hz : s.ifetch s.csr.mepc = 0
  · simp only [hz, if_true]
    rfl
  · simp only [hz, if_false]
    rcases rvDecode env.extC (s.ifetch s.csr.mepc) with ir | ir | _
    · simp only [h, if_true, emulateMisalignedLoad_eq]
      rcases misalignedLoadVal s s.csr.mtval ir.opcode with _ | v
      · rfl
      · exact Cpu.setX_x0 s ir.rd v
    · rfl
    · rfl

theorem raise_load_x0 (env : Env) (addr : Word) (s : Cpu) :
    (raise env .loadMisaligned addr s).X regZero =
      lastX0 (emulatedWrite env s s.PC addr) (s.X regZero) := by
  unfold raise trapHandler setCauseAndTval emulatedWrite
  by_cases hmode : s.isUOrSMode = true
  · rw [if_pos hmode, if_pos (by exact hmode), if_pos (.inl hmode), vectorTo_X]
    rfl
  · rw [if_neg hmode, if_neg (by exact hmode)]
    by_cases hvec : s.csr.mtvec = 0
    · rw [if_pos (by exact hvec), if_neg (by simp [hmode, hvec])]
      exact trapDefaultHandler_load_x0 env rfl
    · rw [if_neg (by exact hvec), if_pos (.inr hvec), vectorTo_X]
      rfl

/-! ## Handlers -/

/-- The state once a trap of the body has been taken. -/
def Flow.after (env : Env) : Flow → Cpu
  | .trap t s => (t.take env s).1
  | f => f.cpu

/-- The state once a trap of the handler has been taken. -/
def Ctl.after (env : Env) : Ctl → Cpu
  | .trap t s => (t.take env s).1
  | r => r.cpu

theorem endOp_after_X (env : Env) (ir : Insn) (lk : Links) (cycle : BitVec 64) (pc : Word) (s : Cpu) :
    ((endOp ir lk cycle pc s).after env).X = s.X := by
  unfold endOp
  split <;> rfl

theorem Flow.finish_after_X (env : Env) (ir : Insn) (lk : Links) (noNext : Bool) (cycle : BitVec 64)
    (pc : Word) (f : Flow) : ((f.finish ir lk noNext cycle pc).after env).X = (f.after env).X := by
  cases f with
  | next s =>
    simp only [Flow.finish]
    split
    · exact endOp_after_X ..
    · rfl
  | endOp pc s => exact endOp_after_X ..
  | lookup pc s => rfl
  | chain r pc s => rfl
  | ret ok s => rfl
  | trap t s => rfl

/-- What is assumed of the system calls: `rv_set_reg` does not write `x0`. -/
def Env.KeepsX0 (env : Env) : Prop := ∀ n s, (env.syscallHandler n s).X regZero = s.X regZero

section

variable {env : Env} (hsys : env.KeepsX0)

include hsys in
theorem Trap.take_x0 {t : Trap} (hcause : t.cause ≠ .loadMisaligned) (s : Cpu) :
    (t.take env s).1.X regZero = s.X regZero := by
  have hraise := congrFun (raise_X env hcause t.tval s) regZero
  unfold Trap.take
  simp only
  split
  · exact hraise
  · exact hraise
  · exact (hsys _ _).trans hraise

theorem take_load_x0 (env : Env) (addr : Word) (s : Cpu) :
    (Trap.take env ⟨.loadMisaligned, addr, .retFalse⟩ s).1.X regZero =
      lastX0 (emulatedWrite env s s.PC addr) (s.X regZero) := raise_load_x0 env addr s

/-- A body that has no row in `loadWrites` and leaves the registers alone. -/
theorem Code.KeepsX.after_x0 {c : Code} (hc : c.KeepsX) {ir : Insn} {lk : Links} {cycle : BitVec 64}
    {pc : Word} {s : Cpu} (hsys : env.KeepsX0)
    (htrap : ∀ t s', c.exec env ir lk cycle pc s = .trap t s' → t.cause ≠ .loadMisaligned) :
    ((c.exec env ir lk cycle pc s).after env).X regZero = s.X regZero := by
  have hX := congrFun (hc env ir lk cycle pc s) regZero
  rcases hexec : c.exec env ir lk cycle pc s with s' | ⟨p, s'⟩ | ⟨p, s'⟩ | ⟨r, p, s'⟩ | ⟨ok, s'⟩ | ⟨t, s'⟩
  all_goals rw [hexec] at hX
  case trap => exact (Trap.take_x0 hsys (htrap t s' hexec) s').trans hX
  all_goals exact hX

/-- A load that is emulated, or writes what `w` says. -/
theorem load_after_x0 {mask addr : Word} {compress : Bool} {cycle : BitVec 64} {pc : Word} {s s' : Cpu}
    {w : List (Reg × Word)} (h : s'.X regZero = lastX0 w (s.X regZero)) :
    (Flow.after env (if misaligned env mask addr then
      misalignTrap .loadMisaligned addr compress cycle pc s else .next s')).X regZero =
      lastX0 (loadWrite env s pc mask addr w) (s.X regZero) := by
  unfold loadWrite
  split
  · exact take_load_x0 env addr _
  · exact h

end

/-- No write but those of `loadWrites` has destination `x0`, or it stores 0. -/
def Insn.GuardsX0 (ir : Insn) : Prop :=
  match ir.opcode with
  | .nop | .cli => True
  | .fuse1 | .fuse5 | .fuse7 => ∀ f ∈ ir.fuse, f.rd ≠ regZero
  | .fuse2 => ir.rd ≠ regZero ∧ ir.rs2 ≠ regZero
  | .fuse8 | .fuse9 | .fuse10 | .fuse12 => ir.rd ≠ regZero
  | .fuse11 => ir.rs1 ≠ regZero
  | op => match rvop op with
    | .set dst _ => dst ir ≠ regZero
    | _ => True

theorem rvop_store_X {op : Opcode} {compress : Bool} {mask : Word} {addr : Insn → (Reg → Word) → Word}
    {write : Cpu → Word → Word → Cpu} (h : rvop op = .store compress mask addr write) (s : Cpu)
    (a v : Word) : (write s a v).X = s.X := by
  cases op
  case sb | sh | sw | csw | cswsp =>
    cases h
    rfl
  all_goals exact nomatch h

theorem rvop_csr_X {op : Opcode} {f : Env → Insn → (Reg → Word) → BitVec 64 → Cpu → Word × Cpu}
    (h : rvop op = .csr f) (env : Env) (ir : Insn) (x : Reg → Word) (cycle : BitVec 64) (s : Cpu) :
    (f env ir x cycle s).2.X = s.X := by
  cases op
  case csrrw | csrrs | csrrc | csrrwi | csrrsi | csrrci =>
    cases h
    exact csrUpdate_X ..
  all_goals exact nomatch h

theorem Insn.GuardsX0.dst {ir : Insn} (h : ir.GuardsX0) (hnop : ir.opcode ≠ .nop) (hcli : ir.opcode ≠ .cli)
    (hnf : ir.opcode.isFuse = false) {dst : Insn → Reg} {val : Insn → (Reg → Word) → Word → Word}
    (hrow : rvop ir.opcode = .set dst val) : dst ir ≠ regZero := by
  unfold Insn.GuardsX0 at h
  split at h
  all_goals first
    | exact absurd ‹_› hnop
    | exact absurd ‹_› hcli
    | (rename_i hop; rw [hop] at hnf; cases hnf)
    | (rw [hrow] at h; exact h)

theorem Insn.loadWrites_row {ir : Insn} (hcli : ir.opcode ≠ .cli) (hnf : ir.opcode.isFuse = false)
    (env : Env) (pc : Word) (s : Cpu) :
    ir.loadWrites env pc s = (rvop ir.opcode).loadWrites env ir pc s := by
  unfold Insn.loadWrites
  split
  all_goals first
    | exact absurd ‹_› hcli
    | (rename_i hop; rw [hop] at hnf; cases hnf)
    | rfl

/-- **What the body of an `RVOP` leaves in `x0`.** -/
theorem exec_x0 {env : Env} (hsys : env.KeepsX0) {ir : Insn} (hg : ir.GuardsX0)
    (hnf : ir.opcode.isFuse = false) (lk : Links) (cycle : BitVec 64) (pc : Word) {s : Cpu}
    (h0 : s.X regZero = 0) :
    (((rvop ir.opcode).exec env ir lk cycle pc s).after env).X regZero =
      lastX0 (ir.loadWrites env pc s) 0 := by
  by_cases hnop : ir.opcode = .nop
  · simp only [Insn.loadWrites, hnop]
    exact Cpu.setX_x0 s regZero 0
  by_cases hcli : ir.opcode = .cli
  · simp only [Insn.loadWrites, hcli, lastX0_cons, lastX0_nil]
    rw [← h0]
    exact Cpu.setX_x0 s ir.rd ir.imm
  rw [Insn.loadWrites_row hcli hnf, ← h0]
  have hdst : ∀ dst val, rvop ir.opcode = .set dst val → dst ir ≠ regZero :=
    fun _ _ => hg.dst hnop hcli hnf
  have hstore : ∀ c m a w, rvop ir.opcode = .store c m a w → ∀ s a v, (w s a v).X = s.X :=
    fun _ _ _ _ => rvop_store_X
  have hcsr : ∀ f, rvop ir.opcode = .csr f → ∀ env ir x cycle s, (f env ir x cycle s).2.X = s.X :=
    fun _ => rvop_csr_X
  generalize rvop ir.opcode = code at hdst hstore hcsr
  cases code with
  | set dst val =>
    have hne := hdst dst val rfl
    exact (Cpu.setX_x0 s (dst ir) _).trans (if_neg hne)
  | load compress mask addr read =>
    exact load_after_x0 (by rw [Cpu.setX_x0]; rfl)
  | lrw => exact load_after_x0 (Cpu.setXNz_x0 ..)
  | amo f => exact load_after_x0 (Cpu.setXNz_x0 s ir.rd _)
  | flw addr => exact load_after_x0 rfl
  | scw =>
    simp only [Code.exec]
    split
    · exact Trap.take_x0 hsys (by simp) _
    · exact (Cpu.setX_x0 _ ir.rd 0).trans (by rw [h0]; split <;> first | rfl | exact h0)
  | store compress mask addr write =>
    refine (Code.KeepsX.store (hstore compress mask addr write rfl)).after_x0 hsys ?_
    intro t s' ht
    simp only [Code.exec] at ht
    split at ht
    · cases ht
      simp
    · cases ht
  | fsw addr =>
    refine (Code.KeepsX.fsw addr).after_x0 hsys ?_
    intro t s' ht
    simp only [Code.exec] at ht
    split at ht
    · cases ht
      simp
    · cases ht
  | branch untaken =>
    refine (Code.KeepsX.branch untaken).after_x0 hsys ?_
    intro t s' ht
    simp only [Code.exec] at ht
    split_ifs at ht
    all_goals cases ht
    simp
  | cbranch untaken =>
    refine (Code.KeepsX.cbranch untaken).after_x0 hsys ?_
    intro t s' ht
    simp only [Code.exec, chainOr] at ht
    split_ifs at ht
    all_goals split at ht <;> cases ht
  | fpu f => rfl
  | fpuX f => exact Cpu.setXNz_x0 ..
  | csr f => exact (Cpu.setXNz_x0 ..).trans (congrFun (hcsr f rfl env ir s.X cycle s) regZero)
  | jal =>
    simp only [Code.exec]
    split
    · exact (Trap.take_x0 hsys (by simp) _).trans (Cpu.setXNz_x0 ..)
    · refine Eq.trans ?_ (Cpu.setXNz_x0 s ir.rd (pc + 4))
      unfold chainOr
      split <;> rfl
  | jalr =>
    simp only [Code.exec]
    split
    · exact (Trap.take_x0 hsys (by simp) _).trans (Cpu.setXNz_x0 ..)
    · exact Cpu.setXNz_x0 ..
  | cjal =>
    refine Eq.trans ?_ (Cpu.setX_x0 s regRa (pc + 2))
    simp only [Code.exec, chainOr]
    split <;> rfl
  | cjalr => exact Cpu.setX_x0 s regRa (pc + 2)
  | cj =>
    simp only [Code.exec, chainOr]
    split <;> rfl
  | ecall => exact Trap.take_x0 hsys (by simp) _
  | ebreak compress => exact Trap.take_x0 hsys (by simp) _
  | skip | cjr | leave | fencei | mret | fail => rfl

/-! ## Fused handlers -/

theorem fuseNextOrStop_after_X (env : Env) (noNext : Bool) (cycle : BitVec 64) (pc : Word) (s : Cpu) :
    ((fuseNextOrStop noNext cycle pc s).after env).X = s.X := by
  unfold fuseNextOrStop
  split <;> rfl

/-- The entry, or the entries up to here, have left `x0` alone and raised no load misaligned. -/
def KeepsX0 (v : Word) : Except (Trap × Cpu) Cpu → Prop
  | .ok s => s.X regZero = v
  | .error (t, s) => t.cause ≠ .loadMisaligned ∧ s.X regZero = v

theorem foldlM_keepsX0 {body : FuseBody} {fs : List OpcodeFuse}
    (hbody : ∀ f ∈ fs, ∀ s, KeepsX0 (s.X regZero) (body f s)) (s : Cpu) :
    KeepsX0 (s.X regZero) (fs.foldlM (fun s f => body f s) s) := by
  induction fs generalizing s with
  | nil => exact rfl
  | cons f fs ih =>
    rw [List.foldlM_cons]
    have hf := hbody f (by simp) s
    rcases hr : body f s with ⟨t, s'⟩ | s'
    · rw [hr] at hf
      exact hf
    · rw [hr] at hf
      have hrest := ih (fun g hg => hbody g (by simp [hg])) s'
      rw [show s'.X regZero = s.X regZero from hf] at hrest
      exact hrest

theorem fuseSeq_keepsX0 {env : Env} (hsys : env.KeepsX0) {body : FuseBody} {ir : Insn}
    (hbody : ∀ f ∈ ir.fuse, ∀ s, KeepsX0 (s.X regZero) (body f s)) (noNext : Bool) (cycle : BitVec 64)
    (pc : Word) (s : Cpu) :
    ((fuseSeq body ir noNext cycle pc s).after env).X regZero = s.X regZero := by
  have hfold := foldlM_keepsX0
    (fun f (hf : f ∈ ir.fuse.take ir.imm2.toNat) => hbody f (List.mem_of_mem_take hf)) s
  unfold fuseSeq
  simp only
  rcases hr : (ir.fuse.take ir.imm2.toNat).foldlM (fun s f => body f s) s with ⟨t, s'⟩ | s'
  · rw [hr] at hfold
    exact (Trap.take_x0 hsys hfold.1 _).trans hfold.2
  · rw [hr] at hfold
    exact (congrFun (fuseNextOrStop_after_X ..) regZero).trans hfold

theorem setX_keepsX0 {r : Reg} (hr : r ≠ regZero) (s : Cpu) (v : Word) :
    (s.setX r v).X regZero = s.X regZero := by
  rw [Cpu.setX_x0, if_neg hr]

theorem fuseLui_keepsX0 {f : OpcodeFuse} (hf : f.rd ≠ regZero) (s : Cpu) :
    KeepsX0 (s.X regZero) (fuseLui f s) := setX_keepsX0 hf s f.imm

theorem fuseAddi_keepsX0 {f : OpcodeFuse} (hf : f.rd ≠ regZero) (s : Cpu) :
    KeepsX0 (s.X regZero) (fuseAddi f s) := setX_keepsX0 hf s (s.X f.rs1 + f.imm)

theorem fuseSw_keepsX0 (env : Env) (f : OpcodeFuse) (s : Cpu) : KeepsX0 (s.X regZero) (fuseSw env f s) := by
  unfold fuseSw checkAligned
  by_cases hm : misaligned env 3 (s.X f.rs1 + f.imm) = true
  · simp only [hm, if_true]
    exact ⟨nofun, rfl⟩
  · simp only [hm]
    exact rfl

theorem fuseShiftExec_keepsX0 {f : OpcodeFuse} (hf : f.rd ≠ regZero) (s : Cpu) :
    KeepsX0 (s.X regZero) (fuseShiftExec f s) := by
  unfold fuseShiftExec
  split
  · exact setX_keepsX0 hf s _
  · exact setX_keepsX0 hf s _
  · exact setX_keepsX0 hf s _
  · exact rfl

theorem checkAligned_load_x0 {env : Env} {addr : Word} {cycle : BitVec 64} {pc : Word} {s : Cpu}
    {k : Cpu → Ctl} {w : List (Reg × Word)}
    (h : ((k s).after env).X regZero = lastX0 w (s.X regZero)) :
    (Ctl.after env (match checkAligned env .loadMisaligned addr s with
      | .error (t, s') => .trap t (s'.save cycle pc)
      | .ok s' => k s')).X regZero = lastX0 (loadWrite env s pc 3 addr w) (s.X regZero) := by
  unfold checkAligned loadWrite
  split_ifs
  · exact take_load_x0 env addr _
  · exact h

theorem doFuse4_x0 (env : Env) (ir : Insn) (noNext : Bool) (cycle : BitVec 64) (pc : Word) (s : Cpu) :
    ((doFuse4 env ir noNext cycle pc s).after env).X regZero =
      lastX0 (fuseLwWrites env pc (ir.fuse.take ir.imm2.toNat) s) (s.X regZero) := by
  unfold doFuse4 fuseSeq
  simp only
  generalize ir.fuse.take ir.imm2.toNat = fs
  -- the entries loaded so far only show in the registers of the state
  induction fs generalizing s with
  | nil => exact congrFun (fuseNextOrStop_after_X ..) regZero
  | cons f fs ih =>
    simp only [List.foldlM_cons, fuseLwWrites]
    unfold fuseLw checkAligned loadWrite
    by_cases hm : misaligned env 3 (s.X f.rs1 + f.imm) = true
    · simp only [hm, if_true]
      exact take_load_x0 env _ _
    · have hm' : misaligned env 3 (s.X f.rs1 + f.imm) = false := by simpa using hm
      have hrest := ih (s.setX f.rd (s.memReadW (s.X f.rs1 + f.imm)))
      rw [Cpu.setX_x0] at hrest
      simp only [hm', Bool.false_eq_true, if_false, lastX0_cons]
      exact hrest

/-- **What a handler leaves in `x0`.** -/
theorem impl_x0 {env : Env} (hsys : env.KeepsX0) {ir : Insn} (hg : ir.GuardsX0) (lk : Links)
    (noNext : Bool) (cycle : BitVec 64) (pc : Word) {s : Cpu} (h0 : s.X regZero = 0) :
    ((impl env ir lk noNext cycle pc s).after env).X regZero = lastX0 (ir.loadWrites env pc s) 0 := by
  by_cases hnf : ir.opcode.isFuse = false
  · have himpl : impl env ir lk noNext cycle pc s = doRvop env ir lk noNext cycle pc s := by
      unfold impl
      split <;> first | rfl | (rename_i hop; rw [hop] at hnf; cases hnf)
    rw [himpl, doRvop_eq_finish, Flow.finish_after_X]
    exact exec_x0 hsys hg hnf lk _ pc h0
  unfold Insn.GuardsX0 at hg
  unfold impl Insn.loadWrites
  cases hop : ir.opcode
  case fuse1 =>
    simp only [hop] at hg ⊢
    exact (fuseSeq_keepsX0 hsys (fun f hf s => fuseLui_keepsX0 (hg f hf) s) ..).trans h0
  case fuse2 =>
    simp only [hop] at hg ⊢
    refine (congrFun (fuseNextOrStop_after_X ..) regZero).trans ?_
    rw [setX_keepsX0 hg.2, setX_keepsX0 hg.1, h0]
    rfl
  case fuse3 => exact (fuseSeq_keepsX0 hsys (fun f _ s => fuseSw_keepsX0 env f s) ..).trans h0
  case fuse4 =>
    rw [← h0]
    exact doFuse4_x0 env ir noNext cycle pc s
  case fuse5 =>
    simp only [hop] at hg ⊢
    exact (fuseSeq_keepsX0 hsys (fun f hf s => fuseShiftExec_keepsX0 (hg f hf) s) ..).trans h0
  case fuse6 =>
    refine (Trap.take_x0 hsys (by simp) _).trans ?_
    exact (setX_keepsX0 (show regA7 ≠ regZero by decide) s ir.imm).trans h0
  case fuse7 =>
    simp only [hop] at hg ⊢
    exact (fuseSeq_keepsX0 hsys (fun f hf s => fuseAddi_keepsX0 (hg f hf) s) ..).trans h0
  case fuse8 =>
    simp only [hop] at hg ⊢
    refine (congrFun (fuseNextOrStop_after_X ..) regZero).trans ?_
    exact (setX_keepsX0 hg s _).trans h0
  case fuse9 =>
    simp only [hop] at hg ⊢
    have hs1 := setX_keepsX0 hg s ir.imm
    rw [← h0, ← hs1]
    refine checkAligned_load_x0 (k := fun s' =>
      fuseNextOrStop noNext (cycle + 2) (pc + 8) (s'.setX ir.rs2 (s'.memReadW (ir.imm + ir.imm2)))) ?_
    rw [fuseNextOrStop_after_X, Cpu.setX_x0]
    rfl
  case fuse10 =>
    simp only [hop] at hg ⊢
    unfold doFuse10 checkAligned
    simp only
    by_cases hm : misaligned env 3 (ir.imm + ir.imm2) = true
    · simp only [hm, if_true]
      refine (Trap.take_x0 hsys (by simp) _).trans ?_
      exact (setX_keepsX0 hg s ir.imm).trans h0
    · simp only [hm]
      refine (congrFun (fuseNextOrStop_after_X ..) regZero).trans ?_
      exact (setX_keepsX0 hg s ir.imm).trans h0
  case fuse11 =>
    simp only [hop] at hg ⊢
    rw [← h0]
    refine checkAligned_load_x0 (k := fun s' => fuseNextOrStop noNext (cycle + 2) (pc + 8)
      ((s'.setX ir.rd (s'.memReadW (s.X ir.rs1 + ir.imm))).setX ir.rs1
        ((s'.setX ir.rd (s'.memReadW (s.X ir.rs1 + ir.imm))).X ir.rs1 + ir.imm2))) ?_
    rw [fuseNextOrStop_after_X, setX_keepsX0 hg, Cpu.setX_x0]
    rfl
  case fuse12 =>
    simp only [hop] at hg ⊢
    have hs1 := (setX_keepsX0 hg s (s.X ir.rs1 + ir.imm)).trans h0
    unfold doFuse12
    simp only
    split
    · split <;> exact hs1
    · split <;> exact hs1
  all_goals exact absurd (by rw [hop]; rfl) hnf

/-! ## Translated nodes -/

theorem opcodeOfOpImm_guardsX0 {imm : Word} {f3 : Nat} {op : Opcode} (h : opcodeOfOpImm imm f3 = some op)
    {ir : Insn} (hrd : ir.rd ≠ regZero) : ({ ir with opcode := op } : Insn).GuardsX0 := by
  unfold opcodeOfOpImm opcodeOfSlli opcodeOfSrli at h
  repeat' split at h
  all_goals cases h <;> exact hrd

theorem opcodeOfOp_guardsX0 {rs2 : Reg} {f3 f7 : Nat} {op : Opcode} (h : opcodeOfOp rs2 f3 f7 = some op)
    {ir : Insn} (hrd : ir.rd ≠ regZero) : ({ ir with opcode := op } : Insn).GuardsX0 := by
  unfold opcodeOfOp at h
  repeat' split at h
  all_goals cases h <;> exact hrd

theorem rvJumpTable_guardsX0 (system : Bool) (insn : Word) :
    (rvJumpTable system {} insn).Ok Insn.GuardsX0 := by
  unfold rvJumpTable
  split
  case h_1 =>
    refine Decoded.ok_select fun op h => ?_
    unfold opcodeOfLoad at h
    split at h <;> cases h <;> trivial
  case h_3 =>
    unfold opMiscMem
    split <;> trivial
  case h_4 =>
    unfold opOpImm
    simp only
    split
    · trivial
    · rename_i hrd
      split
      · exact opcodeOfOpImm_guardsX0 ‹_› hrd
      · trivial
  case h_5 =>
    unfold opAuipc
    simp only
    split
    · trivial
    · rename_i hrd
      exact hrd
  case h_6 =>
    refine Decoded.ok_select fun op h => ?_
    unfold opcodeOfStore at h
    split at h <;> cases h <;> trivial
  case h_8 =>
    refine Decoded.ok_select fun op h => ?_
    unfold opcodeOfAmo at h
    split at h <;> cases h <;> trivial
  case h_9 =>
    unfold opOp
    simp only
    split
    · trivial
    · rename_i hrd
      exact Decoded.ok_select fun op h => opcodeOfOp_guardsX0 h hrd
  case h_10 =>
    unfold opLui
    simp only
    split
    · trivial
    · rename_i hrd
      exact hrd
  case h_15 =>
    refine Decoded.ok_select fun op h => ?_
    unfold opcodeOfOpFp at h
    repeat' split at h
    all_goals cases h <;> trivial
  case h_16 =>
    refine Decoded.ok_select fun op h => ?_
    unfold opcodeOfBranch at h
    split at h <;> cases h <;> trivial
  case h_19 =>
    unfold opSystem
    simp only
    split
    · rename_i op h
      split
      · unfold opcodeOfSystem at h
        repeat' split at h
        all_goals cases h <;> trivial
      · trivial
    · trivial
  all_goals trivial

theorem cDecodeRs2c_ne_zero (insn : Word) : cDecodeRs2c insn ≠ regZero := by
  intro h
  have h3 := congrArg (fun r : Reg => r.getLsbD 3) h
  simp [cDecodeRs2c] at h3

theorem cDecodeRs1c_ne_zero (insn : Word) : cDecodeRs1c insn ≠ regZero := by
  intro h
  have h3 := congrArg (fun r : Reg => r.getLsbD 3) h
  simp [cDecodeRs1c] at h3

/-- `c.srai` takes all five bits of its register field, the upper two of which select it. -/
theorem cDecodeRs1_ne_zero {insn : Word} (h : (insn.extractLsb' 10 2).toNat = 1) :
    cDecodeRs1 insn ≠ regZero := by
  intro hz
  have h3 := congrArg (fun r : Reg => r.getLsbD 3) hz
  have h0 : (insn.extractLsb' 10 2).getLsbD 0 = true := by
    rw [BitVec.eq_of_toNat_eq (y := 1#2) h]
    rfl
  simp [cDecodeRs1] at h3
  simp at h0
  rw [h0] at h3
  cases h3

theorem rvcJumpTable_guardsX0 (insn : Word) : (rvcJumpTable {} insn).Ok Insn.GuardsX0 := by
  unfold rvcJumpTable
  split
  case h_1 =>
    unfold opCaddi4spn
    simp only
    split
    · trivial
    · exact cDecodeRs2c_ne_zero insn
  case h_2 =>
    unfold opCaddi
    simp only
    split
    · trivial
    · rename_i hrd
      exact hrd
  case h_3 =>
    unfold opCslli
    simp only
    split
    · rename_i hrd
      exact hrd
    · trivial
  case h_7 =>
    unfold opClwsp
    simp only
    split <;> trivial
  case h_9 =>
    unfold opClui
    simp only
    split
    · trivial
    · rename_i hrd
      split
      · split
        · trivial
        · exact hrd
      · split
        · trivial
        · exact hrd
  case h_11 =>
    unfold opCmiscAlu
    split
    · simp only
      split
      · trivial
      · split
        · trivial
        · exact cDecodeRs1c_ne_zero insn
    · rename_i hsel
      simp only
      split
      · trivial
      · exact cDecodeRs1_ne_zero hsel
    · exact cDecodeRs1c_ne_zero insn
    · split
      · rename_i op h
        unfold opcodeOfCa at h
        split at h <;> cases h <;> exact cDecodeRs1c_ne_zero insn
      · trivial
  case h_12 =>
    unfold opCcr
    simp only
    split_ifs with h1 h2 h3 h4 h5 h6 h7
    all_goals first | trivial | assumption | exact h6.1
  all_goals trivial

/-- **A decoded node has destination `x0` only if it is a load, `c.li` or `nop`.** -/
theorem rvDecode_guardsX0 {extC : Bool} {insn : Word} {ir : Insn} (h : rvDecode extC insn = .ok ir) :
    ir.GuardsX0 := by
  unfold rvDecode rvDecodeInto at h
  split at h
  · have hs := rvcJumpTable_guardsX0 (insn &&& 0xffff)
    rw [h] at hs
    exact hs
  · have hs := rvJumpTable_guardsX0 false insn
    rw [h] at hs
    exact hs

/-- A row of the form `X[dst] = val` other than `nop` and `c.li`. -/
theorem Insn.GuardsX0.of_row {ir : Insn} (hnf : ir.opcode.isFuse = false)
    (h : ∀ dst val, rvop ir.opcode = .set dst val → ir.opcode = .nop ∨ ir.opcode = .cli ∨ dst ir ≠ regZero) :
    ir.GuardsX0 := by
  unfold Insn.GuardsX0
  split
  case h_1 | h_2 => trivial
  case h_12 hnop hcli _ _ _ _ _ _ _ _ _ =>
    split
    · rename_i dst val hrow
      exact ((h dst val hrow).resolve_left hnop).resolve_left hcli
    · trivial
  all_goals
    rename_i hop
    rw [hop] at hnf
    cases hnf

theorem rvop_set_dst {op : Opcode} {dst : Insn → Reg} {val : Insn → (Reg → Word) → Word → Word}
    (h : rvop op = .set dst val) (ir : Insn) (pc : Word) : dst { ir with pc } = dst ir := by
  cases op
  all_goals first
    | (cases h; rfl)
    | cases h

/-- `pc` is stored after decoding. -/
theorem Insn.GuardsX0.setPc {ir : Insn} (h : ir.GuardsX0) (hnf : ir.opcode.isFuse = false) (pc : Word) :
    ({ ir with pc } : Insn).GuardsX0 := by
  refine .of_row hnf fun dst val hrow => ?_
  by_cases hnop : ir.opcode = .nop
  · exact .inl hnop
  by_cases hcli : ir.opcode = .cli
  · exact .inr (.inl hcli)
  · rw [rvop_set_dst hrow]
    exact .inr (.inr (h.dst hnop hcli hnf hrow))

/-- A rewrite of the constant optimiser keeps the destination. -/
theorem Insn.GuardsX0.constopt {ir : Insn} (h : ir.GuardsX0) (hnf : ir.opcode.isFuse = false)
    (info : ConstoptInfo) : (Rv32emu.constopt ir info).1.GuardsX0 := by
  by_cases hnop : ir.opcode = .nop
  · simpa [Rv32emu.constopt, hnop, constoptRule, Fold.run] using h
  by_cases hscw : ir.opcode = .scw
  · simpa [Rv32emu.constopt, hscw, constoptRule, Fold.run] using h
  by_cases hcjalr : ir.opcode = .cjalr
  · simpa [Rv32emu.constopt, hcjalr, constoptRule, Fold.run] using h
  by_cases hcli : ir.opcode = .cli
  · simpa [Rv32emu.constopt, hcli, constoptRule, Fold.run] using h
  have hrule := ruleFor ir.opcode hnop hscw hcjalr
  have hdst : ∀ dst val, rvop ir.opcode = .set dst val → dst ir ≠ regZero :=
    fun _ _ => h.dst hnop hcli hnf
  unfold Rv32emu.constopt
  generalize constoptRule ir.opcode = f at hrule
  generalize hrow : rvop ir.opcode = c at hrule hdst
  cases hrule with
  | keep | known | bitManip | load | csr | lrw | amo | fpuX | jal | jalr | cjal => exact h
  | auipc => exact hdst _ _ rfl
  | fold1 hnew | fold2 hnew | inPlace hnew =>
    simp only [Fold.run]
    split
    · refine .of_row hnew.not_fuse fun dst val hset => .inr (.inr ?_)
      cases hnew.body.symm.trans hset
      exact hdst _ _ rfl
    · exact h
  | branch | cbranch =>
    simp only [Fold.run]
    split
    · trivial
    · exact h

theorem constoptRun_guardsX0 {irs : List Insn} (h : ∀ ir ∈ irs, ir.GuardsX0)
    (hnf : ∀ ir ∈ irs, ir.opcode.isFuse = false) (info : ConstoptInfo) :
    ∀ ir ∈ (constoptRun irs info).1, ir.GuardsX0 := by
  induction irs generalizing info with
  | nil => simp [constoptRun]
  | cons x irs ih =>
    intro ir hir
    rcases List.mem_cons.mp hir with rfl | hir
    · exact (h x (by simp)).constopt (hnf x (by simp)) info
    · exact ih (fun y hy => h y (by simp [hy])) (fun y hy => hnf y (by simp [hy])) _ ir hir

theorem FusedFrom.guardsX0 {node : Insn} {l : List Insn} (h : FusedFrom node l)
    (hl : ∀ ir ∈ l, ir.GuardsX0) : node.GuardsX0 := by
  have hrd (ir : Insn) (hir : ir ∈ l) (hop : ir.opcode = .lui ∨ ir.opcode = .addi ∨ ir.opcode = .add ∨
      isShiftImm ir.opcode = true) : ir.rd ≠ regZero := by
    have hg := hl ir hir
    unfold Insn.GuardsX0 at hg
    rcases hop with hop | hop | hop | hop
    · rw [hop] at hg
      exact hg
    · rw [hop] at hg
      exact hg
    · rw [hop] at hg
      exact hg
    · cases hopc : ir.opcode <;> rw [hopc] at hop hg <;> first | exact hg | cases hop
  cases h with
  | same => exact hl node (by simp)
  | seq hseq ir l hall hlen =>
    have hfuse (hp : ∀ x ∈ ir :: l, x.rd ≠ regZero) :
        ∀ f ∈ (ir :: l).map Insn.toFuse, f.rd ≠ regZero := by
      intro f hf
      obtain ⟨x, hx, rfl⟩ := List.mem_map.mp hf
      exact hp x hx
    cases hseq with
    | lui => exact hfuse fun x hx => hrd x hx (.inl (by simpa using hall x hx))
    | sw => trivial
    | lw => trivial
    | shift => exact hfuse fun x hx => hrd x hx (.inr (.inr (.inr (hall x hx))))
    | addi => exact hfuse fun x hx => hrd x hx (.inr (.inl (by simpa using hall x hx)))
  | fuse2 ir next hop hnext => exact ⟨hrd ir (by simp) (.inl hop), hrd next (by simp) (.inr (.inr (.inl hnext)))⟩
  | fuse6 => trivial
  | fuse8 ir next hop => exact hrd ir (by simp) (.inl hop)
  | fuse9 ir next hop => exact hrd ir (by simp) (.inl hop)
  | fuse10 ir next hop => exact hrd ir (by simp) (.inl hop)
  | fuse11 ir next hop hnext hrs1 hrd' =>
    change ir.rs1 ≠ regZero
    rw [hrs1, hrd']
    exact hrd next (by simp) (.inr (.inl hnext))
  | fuse12 ir next hop hnext hne => exact hne

/-- **The nodes of a translated block have destination `x0` only in a load or `c.li`.** -/
theorem blockTranslate_guardsX0 (extC : Bool) (fetch : Word → Word) (pc : Word) (alloc : Word → Bool) :
    ∀ ir ∈ matchPattern alloc (optimizeConstant (blockTranslate extC fetch pc).1), ir.GuardsX0 := by
  have hblock : IrBlock extC pc (blockTranslate extC fetch pc).1 := translateLoop_irBlock ..
  have hdec : ∀ {pc : Word} {irs : List Insn}, IrBlock extC pc irs → ∀ ir ∈ irs, ir.GuardsX0 := by
    intro pc irs h
    induction h with
    | nil => simp
    | cons hdec hend hrest ih =>
      intro ir hir
      rcases List.mem_cons.mp hir with rfl | hir
      · exact (rvDecode_guardsX0 hdec).setPc (rvDecode_wellFormed hdec).not_fuse _
      · exact ih ir hir
  have hopt := constoptRun_guardsX0 (hdec hblock) hblock.unfused.not_fuse .init
  intro ir hir
  rw [← matchGroups_fst] at hir
  obtain ⟨g, hg, rfl⟩ := List.mem_map.mp hir
  refine (matchGroups_fusedFrom alloc _ g hg).guardsX0 fun x hx => hopt x ?_
  rw [← matchGroups_snd alloc (constoptRun _ _).1]
  exact List.mem_flatMap.mpr ⟨g, hg, hx⟩

/-! ## Runs -/

namespace Conf

/-- The next node to be run leaves 0 in `x0`. -/
def X0Kept (env : Env) (c : Conf) : Prop :=
  match c.loc with
  | .run _ _ (ir :: _) _ pc => lastX0 (ir.loadWrites env pc c.cpu) 0 = 0
  | _ => True

/-- The nodes of every block keep `x0`, but for their loads and `c.li`. -/
def BlocksGuardX0 (c : Conf) : Prop := ∀ r b, c.eng.block r = some b → ∀ ir ∈ b.irs, ir.GuardsX0

variable {env : Env} {host : Host} {c : Conf}

theorem BlocksGuardX0.step (h : c.BlocksGuardX0) : (c.step env host).1.BlocksGuardX0 := by
  intro r b' hb'
  obtain ⟨b, hsame, hb | ⟨-, hnew⟩⟩ := step_block hb'
  · rw [hsame.irs]
    exact h r b hb
  · obtain ⟨q, hirs⟩ := hnew.irs
    rw [hsame.irs, hirs]
    exact blockTranslate_guardsX0 _ _ _ _

theorem enter_cpu (c : Conf) (disp r : Ref) (cycle : BitVec 64) (pc : Word) :
    (c.enter disp r cycle pc).1.cpu = c.cpu := by
  unfold Conf.enter
  split <;> rfl

theorem handlerReturned_cpu (c : Conf) (disp : Ref) (ok : Bool) :
    (c.handlerReturned disp ok).cpu = c.cpu := by
  unfold Conf.handlerReturned
  split <;> rfl

theorem lookupBranch_X (c : Conf) (disp cur : Ref) (cycle : BitVec 64) (pc : Word) :
    (c.lookupBranch disp cur cycle pc).1.cpu.X = c.cpu.X := by
  unfold Conf.lookupBranch
  simp only
  split
  · rw [enter_cpu]
  · rw [enter_cpu]
  · rw [handlerReturned_cpu]
    rfl

theorem stepRun_X (env : Env) (c : Conf) (disp cur : Ref) (ir : Insn) (rest : List Insn)
    (cycle : BitVec 64) (pc : Word) :
    ∃ lk, (c.stepRun env disp cur (ir :: rest) cycle pc).1.cpu.X =
      ((impl env ir lk rest.isEmpty cycle pc c.cpu).after env).X := by
  refine ⟨if rest.isEmpty then (c.eng.block cur).elim {} Block.links else {}, ?_⟩
  unfold Conf.stepRun
  simp only
  split
  · rename_i h
    rw [h]
    rfl
  · rename_i h
    rw [h, enter_cpu]
    rfl
  · rename_i h
    rw [h, lookupBranch_X]
    rfl
  · rename_i h
    rw [h, handlerReturned_cpu]
    rfl
  · rename_i h
    rw [h]
    split_ifs
    · rfl
    · rw [handlerReturned_cpu]
      rfl

theorem raiseIllegal_X (env : Env) (s : Cpu) (stop : Stop) : (raiseIllegal env s stop).1.X = s.X := by
  unfold raiseIllegal
  split
  · exact raise_X env (by decide) _ _
  · rfl

theorem blockFindOrTranslate_X (env : Env) (host : Host) (e : Engine) (s : Cpu) :
    (blockFindOrTranslate env host e s).2.2.1.X = s.X := by
  unfold blockFindOrTranslate
  rcases e.blockLookupOrFind env.extC s.PC with ⟨_ | r, e1⟩
  · simp only
    generalize (if mapFull e1.size then { e1.blockMapClear with prev := none } else e1) = e2
    split
    · rfl
    · split_ifs
      all_goals exact raiseIllegal_X env s _
  · rfl

theorem dispatch_X (env : Env) (host : Host) (c : Conf) : (c.dispatch env host).1.cpu.X = c.cpu.X := by
  have hfind := blockFindOrTranslate_X env host (c.refreshPrev env) c.cpu
  unfold Conf.dispatch
  rcases hout : blockFindOrTranslate env host (c.refreshPrev env) c.cpu with ⟨_ | q, e, s, events⟩
  · rw [hout] at hfind
    simp only
    split_ifs <;> exact hfind
  · rw [hout] at hfind
    simp only
    split <;> exact hfind

/-- **One step keeps `x0` exactly if the loads and `c.li` of its node do.** -/
theorem step_x0 (hsys : env.KeepsX0) (hblocks : c.BlocksGuardX0) (hcur : c.Cursor)
    (h0 : c.cpu.X regZero = 0) : (c.step env host).1.cpu.X regZero = 0 ↔ c.X0Kept env := by
  unfold Conf.step X0Kept
  unfold Cursor at hcur
  rcases hloc : c.loc with _ | _ | ⟨disp, cur, rest, cycle, pc⟩ | _
  · simpa using h0
  · simp only
    split
    · rw [dispatch_X]
      simpa using h0
    · simpa using h0
  · simp only [hloc] at hcur ⊢
    rcases rest with _ | ⟨ir, rest⟩
    · simpa [Conf.stepRun] using h0
    · obtain ⟨b, hb, hsuf⟩ := hcur
      have hg : ir.GuardsX0 := hblocks cur b hb ir (hsuf.subset (by simp))
      obtain ⟨lk, hX⟩ := stepRun_X env c disp cur ir rest cycle pc
      rw [hX, impl_x0 hsys hg lk rest.isEmpty cycle pc h0]
  · simpa using h0

theorem blocksGuardX0_stepN (h : c.BlocksGuardX0) (n : Nat) : (c.stepN env host n).1.BlocksGuardX0 := by
  induction n with
  | zero => exact h
  | succ n ih =>
    rw [stepN_succ]
    exact ih.step

end Conf

/-- **`x0` along a run.** It holds 0 up to the `n`th step if and only if no load and no `c.li` run before
has left anything else there. -/
theorem x0_zero_iff {env : Env} (hsys : env.KeepsX0) (host : Host) {s : Cpu} (h0 : s.X regZero = 0)
    (n : Nat) :
    (∀ m ≤ n, (Conf.stepN env host m { eng := {}, cpu := s }).1.cpu.X regZero = 0) ↔
      ∀ m < n, (Conf.stepN env host m { eng := {}, cpu := s }).1.X0Kept env := by
  have hblocks (m : Nat) : (Conf.stepN env host m { eng := {}, cpu := s }).1.BlocksGuardX0 :=
    Conf.blocksGuardX0_stepN (fun _ _ hb => by cases hb) m
  have hcur (m : Nat) : (Conf.stepN env host m { eng := {}, cpu := s }).1.Cursor :=
    Conf.cursor_stepN (by trivial) env host m
  constructor
  · intro h m hm
    have hstep := h (m + 1) hm
    rw [Conf.stepN_succ] at hstep
    exact (Conf.step_x0 hsys (hblocks m) (hcur m) (h m hm.le)).mp hstep
  · intro h m hm
    induction m with
    | zero => exact h0
    | succ m ih =>
      rw [Conf.stepN_succ]
      exact (Conf.step_x0 hsys (hblocks m) (hcur m) (ih (by omega))).mpr (h m (by omega))

/-- `lw x0, 16(x0)` at address 0, in a memory that holds nothing else. -/
def zeroToX0 : Cpu := Cpu.zero (Mem.writeW (fun _ => 0) 0 0x1002003)

/-- The word at address 16 is 0, and it is left in `x0`. -/
theorem x0_zero_iff_zeroToX0 :
    zeroToX0.X regZero = 0 ∧ ∀ m ≤ 3,
      (Conf.stepN (Env.bare false) roomyHost m { eng := {}, cpu := zeroToX0 }).1.cpu.X regZero = 0 := by
  refine ⟨rfl, ?_⟩
  refine (x0_zero_iff (fun _ _ => rfl) roomyHost rfl 3).mpr fun m hm => ?_
  obtain rfl | rfl | rfl : m = 0 ∨ m = 1 ∨ m = 2 := by omega
  · trivial
  · trivial
  · have hloc : (Conf.stepN (Env.bare false) roomyHost 2 { eng := {}, cpu := zeroToX0 }).1.loc =
        .run 0 0 (matchPattern (fun _ => true) [{ opcode := .lw, imm := 16 }]) 0 0 := rfl
    rw [matchPattern] at hloc
    unfold Conf.X0Kept
    rw [hloc]
    rfl

/-- `lw x0, 0(x0)` at address 0, in a memory that holds nothing else. -/
def loadToX0 : Cpu := Cpu.zero (Mem.writeW (fun _ => 0) 0 0x2003)

/-- The word at address 0 is the instruction itself, and it is left in `x0`. -/
theorem x0_written_by_load :
    (Env.bare false).KeepsX0 ∧ loadToX0.X regZero = 0 ∧ rvDecode true 0x2003 = .ok { opcode := .lw } ∧
      (Conf.stepN (Env.bare false) roomyHost 3 { eng := {}, cpu := loadToX0 }).1.cpu.X regZero =
        0x2003 := by
  refine ⟨fun _ _ => rfl, rfl, rfl, ?_⟩
  have hloc : (Conf.stepN (Env.bare false) roomyHost 2 { eng := {}, cpu := loadToX0 }).1.loc =
      .run 0 0 (matchPattern (fun _ => true) [{ opcode := .lw }]) 0 0 := rfl
  have hmem : (Conf.stepN (Env.bare false) roomyHost 2 { eng := {}, cpu := loadToX0 }).1.cpu.mem =
      loadToX0.mem := rfl
  have hx : (Conf.stepN (Env.bare false) roomyHost 2 { eng := {}, cpu := loadToX0 }).1.cpu.X =
      fun _ => 0 := rfl
  rw [matchPattern] at hloc
  rw [Conf.stepN_succ]
  generalize (Conf.stepN (Env.bare false) roomyHost 2 { eng := {}, cpu := loadToX0 }).1 = c at hloc hmem hx
  unfold Conf.step
  simp only [hloc]
  obtain ⟨lk, hX⟩ := Conf.stepRun_X (Env.bare false) c 0 0 { opcode := .lw } [] 0 0
  rw [hX, impl_x0 (fun _ _ => rfl) (by trivial) lk _ 0 0 (by rw [hx])]
  change lastX0 (loadWrite (Env.bare false) c.cpu 0 3 (c.cpu.X 0 + 0)
    [(0, c.cpu.mem.readW (memOff (c.cpu.X 0 + 0)))]) 0 = 0x2003
  rw [hx, hmem]
  rfl

end Rv32emu
