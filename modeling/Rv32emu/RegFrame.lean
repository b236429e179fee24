import Rv32emu.Tlb
import Rv32emu.TrapLoop
import Rv32emu.ZeroReg

/-!
# The registers a handler leaves alone

* `Keeps r` : register `r` holds what it held; `mmuRead_keeps`, `mmuWrite_keeps` for memory accesses, if the
  devices (`SysEnv.LeavesRegs`) and the nested trap handlers keep it;
* `restoring` : the nested trap handlers, cut down to the runs that give every register back;
* `Insn.dests` : the registers a node may load with something new before the next node runs;
* `Insn.inPlace` : what a node makes of the old value of any other register. Three compressed instructions
  overwrite `rs1`, and some nodes store a constant in `x0`;
* `sysImpl_reg` : a handler that goes on to the next node has done just that.
-/

namespace Rv32emu

open StateRel

/-! ## Memory accesses -/

/-- Register `r` holds what it held. -/
def Keeps (r : Reg) (s s' : Sys) : Prop := s'.cpu.X r = s.cpu.X r

instance (r : Reg) : IsPreorder Sys (Keeps r) where
  refl _ := rfl
  trans _ _ _ h h' := Eq.trans h' h

structure SysEnv.LeavesRegs (env : SysEnv) : Prop where
  mmioRead : ∀ dev n a s, (env.mmioRead dev n a s).2.X = s.X
  mmioWrite : ∀ dev n a v s, (env.mmioWrite dev n a v s).X = s.X

def Sys.sameRegs (s s' : Sys) : Bool := (List.finRange 32).all fun r => s'.cpu.X (.ofFin r) == s.cpu.X (.ofFin r)

/-- The nested trap handlers, cut down to the runs that give every register back. -/
def restoring (raise : Raise) : Raise := fun cause tval s =>
  (raise cause tval s).filter fun r => s.sameRegs r.2

theorem Sys.sameRegs_iff {s s' : Sys} : s.sameRegs s' = true ↔ ∀ r, Keeps r s s' := by
  simp only [Sys.sameRegs, List.all_eq_true, beq_iff_eq]
  exact ⟨fun h r => h r.toFin (List.mem_finRange _), fun h r _ => h (.ofFin r)⟩

theorem restoring_keeps (raise : Raise) (r : Reg) (cause : SysCause) (tval : Word) :
    Within (Keeps r) (restoring raise cause tval) := by
  intro s a s' h
  obtain ⟨-, hregs⟩ := Option.filter_eq_some_iff.mp h
  exact Sys.sameRegs_iff.mp hregs r

variable {env : SysEnv} {raise : Raise} {r : Reg}

theorem modifyCpu_keeps {f : Cpu → Cpu} (h : ∀ s, (f s).X r = s.X r) : Within (Keeps r) (modifyCpu f) :=
  .modify fun s => h s.cpu

theorem covers_keeps (env : SysEnv) (r : Reg) : Covers env (Keeps r) where
  refl _ := rfl
  trans h h' := Eq.trans h' h
  flags hcpu _ _ := congrArg (Cpu.X · r) hcpu
  hit {s vaddr access e} _ _ := by
    unfold Keeps Sys.hitDtlb
    split <;> rfl
  fill _ := rfl
  refill _ := rfl

theorem setX_keeps {q : Reg} (h : q ≠ r) (s : Cpu) (v : Word) : (s.setX q v).X r = s.X r :=
  Cpu.setX_of_ne s h.symm v

theorem setXNz_keeps {q : Reg} (h : q ≠ 0 → q ≠ r) (s : Cpu) (v : Word) : (s.setXNz q v).X r = s.X r := by
  unfold Cpu.setXNz
  split
  · rename_i hq
    exact setX_keeps (h hq) s v
  · rfl

section Accesses

variable (hdev : env.LeavesRegs) (hraise : ∀ cause tval, Within (Keeps r) (raise cause tval))

include hraise

theorem sysMisalign_keeps (cause : SysCause) (tval : Word) (compress : Bool) (cycle : BitVec 64) (pc : Word) :
    Within (Keeps r) (sysMisalign raise cause tval compress cycle pc) :=
  .bind (modifyCpu_keeps fun _ => rfl) fun _ => .bind (hraise _ _) fun _ => .pure _

include hdev

theorem mmuRead_keeps (size : Nat) (read : Cpu → Word → Word) (vaddr : Word) :
    Within (Keeps r) (mmuRead env raise size read vaddr) := by
  refine .bind ((covers_keeps env r).mmuTranslate hraise vaddr .read) fun addr => .get_bind fun s => ?_
  refine .ite (.pure _) (.ite (.pure _) (.ite .failure ?_))
  cases env.mmioDevice addr with
  | none => exact .failure
  | some dev =>
    refine .bind (modifyCpu_keeps fun s => ?_) fun _ => .pure _
    exact congrFun (hdev.mmioRead dev s.host addr s) r

theorem mmuWrite_keeps (size : Nat) {write : Cpu → Word → Word → Cpu} (hwrite : ∀ s a v, (write s a v).X = s.X)
    (vaddr value : Word) : Within (Keeps r) (mmuWrite env raise size write vaddr value) := by
  refine .bind ((covers_keeps env r).mmuTranslate hraise vaddr .write) fun addr => .get_bind fun s => ?_
  refine .ite (.pure _) (.ite (modifyCpu_keeps fun s => congrFun (hwrite s addr value) r) (.ite .failure ?_))
  cases env.mmioDevice addr with
  | none => exact .failure
  | some dev =>
    refine modifyCpu_keeps fun s => ?_
    exact congrFun (hdev.mmioWrite dev s.host addr _ s) r

end Accesses

/-! ## Handler bodies -/

/-- Code that ends the block: no node runs after it. -/
def Code.leavesBlock : Code → Bool
  | .jal | .jalr | .cjal | .cj | .cjr | .cjalr | .leave | .fencei | .ecall | .ebreak _ | .mret | .fail => true
  | _ => false

/-- Code that may be followed by the next node and does not write register `r`. -/
def Code.Leaves (r : Reg) (ir : Insn) : Code → Prop
  | .set dst _ => dst ir ≠ r
  | .load .. | .scw => ir.rd ≠ r
  | .lrw | .amo _ | .csr _ | .fpuX _ => ir.rd ≠ 0 → ir.rd ≠ r
  | c => c.leavesBlock = false

theorem setBranchTaken_keeps (taken : Bool) : Within (Keeps r) (setBranchTaken taken) :=
  .modify fun s => by
    unfold Keeps
    split <;> rfl

theorem sysChainOr_keeps (link : Option Ref) (pc : Word) : Within (Keeps r) (sysChainOr link pc) := by
  refine .get_bind fun s => ?_
  split
  · exact .bind (modifyCpu_keeps fun _ => rfl) fun _ => .pure _
  · exact .pure _

section Bodies

variable (hdev : env.LeavesRegs) (hraise : ∀ cause tval, Within (Keeps r) (raise cause tval))

include hdev hraise

/-- **The body of an `RVOP` that does not write `r`.** -/
theorem sysExec_keeps {ir : Insn} (hcode : (rvop ir.opcode).Leaves r ir) (lk : Links) (cycle : BitVec 64) (pc : Word) :
    Within (Keeps r) ((rvop ir.opcode).sysExec env raise ir lk cycle pc) := by
  have hmis := sysMisalign_keeps (r := r) hraise
  have hdone {f : Cpu → Cpu} (h : ∀ s, (f s).X r = s.X r) : Within (Keeps r) (do modifyCpu f; return SysFlow.done) :=
    .bind (modifyCpu_keeps h) fun _ => .pure _
  have hread (size : Nat) (read : Cpu → Word → Word) (a : Word) := mmuRead_keeps hdev hraise size read a
  have hwriteW (a v : Word) : Within (Keeps r) (mmuWrite env raise 4 Cpu.memWriteW a v) :=
    mmuWrite_keeps hdev hraise 4 (fun s a v => (rfl : (s.memWriteW a v).X = s.X)) a v
  have hstore {compress : Bool} {mask : Word} {addr : Insn → (Reg → Word) → Word} {write : Cpu → Word → Word → Cpu}
      (hrow : rvop ir.opcode = .store compress mask addr write) := rvop_store_X hrow
  have hcsr {f : Env → Insn → (Reg → Word) → BitVec 64 → Cpu → Word × Cpu} (hrow : rvop ir.opcode = .csr f) :=
    rvop_csr_X hrow
  generalize rvop ir.opcode = code at *
  cases code with
  | set dst val => exact hdone (f := fun s => s.setX (dst ir) (val ir s.X pc)) fun s => setX_keeps hcode s _
  | skip => exact hdone (f := fun s => s) fun _ => rfl
  | fpu f => exact hdone (f := fun s => { s with fpu := f env.fp ir s.X s.fpu }) fun _ => rfl
  | fpuX f =>
    exact hdone (f := fun s => { s with fpu := (f env.fp ir s.fpu).2 }.setXNz ir.rd (f env.fp ir s.fpu).1)
      fun s => setXNz_keeps hcode { s with fpu := _ } _
  | load compress mask addr read =>
    refine .get_bind fun s => .ite (hmis _ _ _ _ _) (.bind (hread _ _ _) fun v => hdone fun s => ?_)
    exact setX_keeps hcode s v
  | store compress mask addr write =>
    refine .get_bind fun s => .ite (hmis _ _ _ _ _) ?_
    exact .bind (mmuWrite_keeps hdev hraise _ (hstore rfl) _ _) fun _ => .pure _
  | lrw =>
    refine .get_bind fun s => .ite (hmis _ _ _ _ _) ?_
    split
    · rename_i hrd
      exact .bind (hread _ _ _) fun v => hdone fun s => setX_keeps (hcode hrd) s v
    · exact .pure _
  | scw =>
    refine .get_bind fun s => .ite (hmis _ _ _ _ _) ?_
    exact .bind (hwriteW _ _) fun _ => hdone fun s => setX_keeps hcode s 0
  | amo f =>
    refine .get_bind fun s => .ite (hmis _ _ _ _ _) (.bind (hread _ _ _) fun v => .get_bind fun _ => ?_)
    refine .bind (modifyCpu_keeps fun s => setXNz_keeps hcode s v) fun _ => ?_
    exact .bind (hwriteW _ _) fun _ => .pure _
  | flw addr =>
    exact .get_bind fun s => .ite (hmis _ _ _ _ _) (.bind (hread _ _ _) fun v => hdone fun _ => rfl)
  | fsw addr => exact .get_bind fun s => .ite (hmis _ _ _ _ _) (.bind (hwriteW _ _) fun _ => .pure _)
  | csr f =>
    have hrun : (Code.csr f).sysExec env raise ir lk cycle pc = (do
        modify fun s => s.afterCsr ir s.cpu.csr.satp
          (f { env.toEnv with gettimeofday := fun _ => cycle + s.timerOffset } ir s.cpu.X cycle s.cpu)
        return .done) := rfl
    rw [hrun]
    refine .bind (.modify fun s => ?_) fun _ => .pure _
    have hX := hcsr rfl { env.toEnv with gettimeofday := fun _ => cycle + s.timerOffset } ir s.cpu.X cycle s.cpu
    unfold Keeps Sys.afterCsr
    simp only [csrSideEffects_cpu]
    rw [setXNz_keeps hcode, hX]
  | branch untaken =>
    refine .get_bind fun s => .ite ?_ ?_
    · exact .bind (setBranchTaken_keeps _) fun _ => .ite (sysChainOr_keeps _ _) (.pure _)
    · exact .bind (setBranchTaken_keeps _) fun _ => .ite (hmis _ _ _ _ _) (sysChainOr_keeps _ _)
  | cbranch untaken =>
    refine .get_bind fun s => .ite ?_ ?_
    · exact .bind (modifyCpu_keeps fun _ => rfl) fun _ => .ite (sysChainOr_keeps _ _) (.pure _)
    · exact .bind (modifyCpu_keeps fun _ => rfl) fun _ => sysChainOr_keeps _ _
  | _ => cases hcode

end Bodies

/-! ## Code that ends the block -/

def SysFlow.goesOn : SysFlow → Bool
  | .done | .nextop => true
  | _ => false

def SysCtl.Stops : SysCtl → Prop
  | .next .. => False
  | _ => True

theorem sysMisalign_stops (cause : SysCause) (tval : Word) (compress : Bool) (cycle : BitVec 64) (pc : Word) :
    Returns (fun f : SysFlow => f.goesOn = false) (sysMisalign raise cause tval compress cycle pc) :=
  .after fun _ => .after fun _ => .pure rfl

theorem sysChainOr_stops (link : Option Ref) (pc : Word) :
    Returns (fun f : SysFlow => f.goesOn = false) (sysChainOr link pc) := by
  refine .after fun s => ?_
  split
  · exact .after fun _ => .pure rfl
  · exact .pure rfl

theorem sysLookup_stops (pc : Word) : Returns (fun f : SysFlow => f.goesOn = false) (sysLookup pc) :=
  .after fun _ => .ite (.pure rfl) (.pure rfl)

theorem sysExec_stops {code : Code} (hcode : code.leavesBlock = true) (ir : Insn) (lk : Links) (cycle : BitVec 64)
    (pc : Word) : Returns (fun f : SysFlow => f.goesOn = false) (code.sysExec env raise ir lk cycle pc) := by
  refine .after fun s => ?_
  cases code with
  | jal => exact .after fun _ => .ite (sysMisalign_stops _ _ _ _ _) (sysChainOr_stops _ _)
  | jalr => exact .after fun _ => .ite (sysMisalign_stops _ _ _ _ _) (sysLookup_stops _)
  | cjal => exact .after fun _ => sysChainOr_stops _ _
  | cj => exact sysChainOr_stops _ _
  | cjr => exact sysLookup_stops _
  | cjalr => exact .after fun _ => sysLookup_stops _
  | leave => exact .ite (.after fun _ => .pure rfl) (.pure rfl)
  | fencei | mret => exact .after fun _ => .pure rfl
  | ecall | ebreak => exact .after fun _ => .after fun _ => .pure rfl
  | fail => exact .ite (.after fun _ => .pure rfl) (.pure rfl)
  | _ => cases hcode

theorem saveAndReturn_stops (ok : Bool) (cycle : BitVec 64) (pc : Word) :
    Returns SysCtl.Stops (saveAndReturn ok cycle pc) := .after fun _ => .pure trivial

theorem sysEndOp_stops (ir : Insn) (lk : Links) (cycle : BitVec 64) (pc : Word) :
    Returns SysCtl.Stops (sysEndOp ir lk cycle pc) := by
  refine .after fun s => ?_
  split
  · exact .after fun _ => .pure trivial
  · exact saveAndReturn_stops _ _ _

theorem sysFuse12_stops (ir : Insn) (lk : Links) (cycle : BitVec 64) (pc : Word) :
    Returns SysCtl.Stops (sysFuse12 ir lk cycle pc) := by
  refine .after fun _ => .after fun s => .after fun _ => .after fun flow => ?_
  split
  · exact .pure trivial
  · exact saveAndReturn_stops _ _ _

/-! ## What stands behind the body -/

/-- The tests between two nodes leave the processor alone. -/
theorem signalOr_next {k : SysM SysCtl} {c : BitVec 64} {p : Word} {s s' : Sys}
    (h : signalOr k s = some (.next c p, s')) : k s = some (.next c p, s') := by
  change (if s.needHandleSignal = true then _ else k : SysM SysCtl) s = _ at h
  split_ifs at h
  · cases h
  · exact h

theorem clearBlockMapIfNeeded_next {k : SysM SysCtl} {cycle c : BitVec 64} {pc p : Word} {s s' : Sys}
    (h : clearBlockMapIfNeeded cycle pc k s = some (.next c p, s')) : k s = some (.next c p, s') := by
  change (if s.needClearBlockMap = true then _ else k : SysM SysCtl) s = _ at h
  split_ifs at h
  · cases h
  · exact h

theorem sysNextop_next {ir : Insn} {lk : Links} {cycle c : BitVec 64} {pc p : Word} {s s' : Sys}
    (h : sysNextop ir lk false cycle pc s = some (.next c p, s')) : s' = s := by
  have h := clearBlockMapIfNeeded_next h
  change (if (false || s.isTrapped) = true then _ else pure _ : SysM SysCtl) s = _ at h
  split_ifs at h
  · exact (sysEndOp_stops ir lk cycle _ _ _ _ h).elim
  · cases h
    rfl

/-- The next node runs after the body of an `RVOP` only if it has run to its end, or to `nextop`. -/
theorem sysRvop_next {ir : Insn} {lk : Links} {cycle c : BitVec 64} {pc p : Word} {s s' : Sys}
    (h : sysRvop env raise ir lk false cycle pc s = some (.next c p, s')) :
    ∃ flow, flow.goesOn = true ∧
      (rvop ir.opcode).sysExec env raise ir lk (cycle + 1) pc { s with cpu := { s.cpu with PC := pc } } =
        some (flow, s') := by
  obtain ⟨u, s₁, hpc, h⟩ := bind_eq_some.mp h
  cases hpc
  obtain ⟨flow, s₂, hbody, h⟩ := bind_eq_some.mp h
  cases flow with
  | done =>
    obtain rfl := sysNextop_next (signalOr_next h)
    exact ⟨.done, rfl, hbody⟩
  | nextop =>
    obtain rfl := sysNextop_next h
    exact ⟨.nextop, rfl, hbody⟩
  | endOp pc' =>
    have hstops : Returns SysCtl.Stops (if ir.opcode = .jalr then
        modify relocateEnableMmu >>= fun _ => sysEndOp ir lk (cycle + 1) pc'
        else sysEndOp ir lk (cycle + 1) pc') :=
      .ite (.after fun _ => sysEndOp_stops _ _ _ _) (sysEndOp_stops _ _ _ _)
    exact (hstops _ _ _ h).elim
  | lookup pc' => cases h
  | chain q pc' => cases h
  | ret ok => cases h

/-! ## Which registers are written -/

/-- The registers a node may load with something new before the next node runs. -/
def Insn.dests (ir : Insn) : List Reg :=
  match ir.opcode with
  | .nop | .csrli | .csrai | .candi => []
  | .cli | .scw => if ir.rd = regZero then [] else [ir.rd]
  | .fuse1 | .fuse4 | .fuse5 | .fuse7 => (ir.fuse.take ir.imm2.toNat).map OpcodeFuse.rd
  | .fuse2 | .fuse9 => [ir.rd, ir.rs2]
  | .fuse8 | .fuse10 => [ir.rd]
  | .fuse11 => [ir.rd, ir.rs1]
  | op => match rvop op with
    | .set .. | .load .. => [ir.rd]
    | .lrw | .amo _ | .csr _ | .fpuX _ => if ir.rd = regZero then [] else [ir.rd]
    | _ => []

/-- What a node makes of the value `v` of a register that is not among its `dests`. -/
def Insn.inPlace (ir : Insn) (r : Reg) (v : Word) : Word :=
  match ir.opcode with
  | .csrli => if r = ir.rs1 then v >>> ir.shamt.toNat else v
  | .csrai => if r = ir.rs1 then sraLoop v ir.shamt else v
  | .candi => if r = ir.rs1 then v &&& ir.imm else v
  | .nop => if r = regZero then 0 else v
  | .cli => if r = regZero ∧ ir.rd = regZero then ir.imm else v
  | .scw => if r = regZero ∧ ir.rd = regZero then 0 else v
  | _ => v

theorem set_reg {ir : Insn} {dst : Insn → Reg} {val : Insn → (Reg → Word) → Word → Word}
    (hrow : rvop ir.opcode = .set dst val) (hr : r ∉ ir.dests) (x : Reg → Word) (pc : Word) :
    (if r = dst ir then val ir x pc else x r) = ir.inPlace r (x r) := by
  obtain ⟨imm, rd, rs1, rs2, opcode, shamt, rm, imm2, fuse, ipc⟩ := ir
  cases opcode
  case nop =>
    cases hrow
    rfl
  case csrli | csrai | candi =>
    cases hrow
    by_cases h : r = rs1
    · simp [Insn.inPlace, h]
    · simp [Insn.inPlace, h]
  case cli =>
    cases hrow
    by_cases hrd : rd = regZero
    · simp [Insn.inPlace, hrd]
    · simp_all [Insn.inPlace, Insn.dests]
  all_goals first
    | (cases hrow; exact if_neg fun h => hr (show r ∈ [rd] from List.mem_singleton.mpr h))
    | cases hrow

theorem row_cases {ir : Insn} (hr : r ∉ ir.dests) :
    (∃ dst val, rvop ir.opcode = .set dst val) ∨ (rvop ir.opcode).leavesBlock = true ∨
      (ir.opcode = .scw ∧ ir.rd = regZero ∧ r = regZero) ∨
      ((rvop ir.opcode).Leaves r ir ∧ ∀ v, ir.inPlace r v = v) := by
  have hone : r ∉ [ir.rd] → ir.rd ≠ r := fun h heq => h (List.mem_singleton.mpr heq.symm)
  have hnz : (r ∉ if ir.rd = regZero then [] else [ir.rd]) → ir.rd ≠ 0 → ir.rd ≠ r := by
    intro h hrd
    rw [if_neg hrd] at h
    exact hone h
  by_cases hscw : ir.opcode = .scw
  · by_cases h0 : ir.rd = regZero ∧ r = regZero
    · exact .inr (.inr (.inl ⟨hscw, h0⟩))
    · have hrd : ir.rd ≠ r := by
        intro heq
        simp_all [Insn.dests]
      refine .inr (.inr (.inr ⟨?_, fun v => ?_⟩))
      · rw [hscw]
        exact hrd
      · simp only [Insn.inPlace, hscw]
        exact if_neg fun h => h0 h.symm
  obtain ⟨imm, rd, rs1, rs2, opcode, shamt, rm, imm2, fuse, ipc⟩ := ir
  cases opcode
  all_goals first
    | exact .inl ⟨_, _, rfl⟩
    | exact .inr (.inl rfl)
    | exact .inr (.inr (.inr ⟨hone hr, fun _ => rfl⟩))
    | exact .inr (.inr (.inr ⟨hnz hr, fun _ => rfl⟩))
    | exact .inr (.inr (.inr ⟨rfl, fun _ => rfl⟩))
    | exact absurd rfl hscw

section Handlers

variable (hdev : env.LeavesRegs) (hraise : ∀ cause tval, Within (Keeps r) (raise cause tval))

include hdev hraise

/-- **An `RVOP` that is followed by the next node.** -/
theorem sysRvop_reg {ir : Insn} (hr : r ∉ ir.dests) {lk : Links} {cycle c : BitVec 64} {pc p : Word} {s s' : Sys}
    (h : sysRvop env raise ir lk false cycle pc s = some (.next c p, s')) :
    s'.cpu.X r = ir.inPlace r (s.cpu.X r) := by
  obtain ⟨flow, hgoes, hbody⟩ := sysRvop_next h
  obtain ⟨dst, val, hrow⟩ | hleaves | ⟨hscw, hrd, rfl⟩ | ⟨hkeeps, hplace⟩ := row_cases hr
  · rw [hrow] at hbody
    cases hbody
    rw [← set_reg hrow hr s.cpu.X pc]
    exact Function.update_apply ..
  · rw [sysExec_stops hleaves ir lk _ pc _ _ _ hbody] at hgoes
    cases hgoes
  · rw [hscw] at hbody
    obtain ⟨t, s₁, hget, hbody⟩ := bind_eq_some.mp hbody
    change (if misaligned env.toEnv 3 (t.cpu.X ir.rs1) = true then _ else _ : SysM SysFlow) s₁ = _ at hbody
    split_ifs at hbody with hm
    · rw [sysMisalign_stops _ _ _ _ _ _ _ _ hbody] at hgoes
      cases hgoes
    · obtain ⟨u, s₂, hwrite, hbody⟩ := bind_eq_some.mp hbody
      cases hbody
      simp only [Insn.inPlace, hscw, hrd]
      exact Cpu.setX_self ..
  · have hkept := sysExec_keeps hdev hraise hkeeps lk _ pc _ _ _ hbody
    rw [hplace]
    exact hkept

omit hdev hraise

theorem sysFuseNextOrStop_keeps (noNext : Bool) (cycle : BitVec 64) (pc : Word) :
    Within (Keeps r) (sysFuseNextOrStop noNext cycle pc) := by
  have hsave (ok : Bool) : Within (Keeps r) (saveAndReturn ok cycle pc) :=
    .bind (modifyCpu_keeps fun _ => rfl) fun _ => .pure _
  refine .get_bind fun s => .ite (.bind (.modify fun _ => rfl) fun _ => .pure _) ?_
  refine .get_bind fun s => .ite (.bind (.modify fun _ => rfl) fun _ => hsave _) ?_
  exact .get_bind fun s => .ite (hsave _) (.pure _)

theorem fuseSeq_keeps {body : FuseBody} {ir : Insn}
    (hbody : ∀ f ∈ ir.fuse.take ir.imm2.toNat, ∀ s s', body f s = .ok s' → s'.X r = s.X r) {noNext : Bool}
    {cycle c : BitVec 64} {pc p : Word} {s s' : Cpu} (h : fuseSeq body ir noNext cycle pc s = .next c p s') :
    s'.X r = s.X r := by
  unfold fuseSeq at h
  simp only at h
  generalize ir.fuse.take ir.imm2.toNat = fs at h hbody
  induction fs generalizing s with
  | nil =>
    unfold fuseNextOrStop at h
    cases noNext with
    | true => cases h
    | false =>
      cases h
      rfl
  | cons f fs ih =>
    rw [List.foldlM_cons] at h
    cases hf : body f s with
    | error e =>
      rw [hf] at h
      cases h
    | ok s₁ =>
      rw [hf] at h
      exact (ih h fun g hg => hbody g (List.mem_cons_of_mem _ hg)).trans (hbody f (List.mem_cons_self ..) s s₁ hf)

theorem sysFusePure_keeps {ir : Insn} {cycle : BitVec 64} {pc : Word}
    (himpl : ∀ c p s s', impl env.toEnv ir {} false cycle pc s = .next c p s' → s'.X r = s.X r) (noNext : Bool) :
    Within (Keeps r) (sysFusePure env ir noNext cycle pc) := by
  intro s a s' h
  obtain ⟨s₀, s₁, hget, h⟩ := bind_eq_some.mp h
  cases hget
  cases hrun : impl env.toEnv ir {} false cycle pc s.cpu with
  | next c p t =>
    rw [hrun] at h
    obtain ⟨u, s₂, hset, h⟩ := bind_eq_some.mp h
    cases hset
    exact (sysFuseNextOrStop_keeps _ _ _ _ _ _ h).trans (himpl c p s.cpu t hrun)
  | _ =>
    rw [hrun] at h
    cases h

theorem impl_keeps {env : Env} {ir : Insn} (hr : r ∉ ir.dests)
    (hop : ir.opcode ∈ [Opcode.fuse1, .fuse2, .fuse5, .fuse7, .fuse8]) {cycle c : BitVec 64} {pc p : Word}
    {s s' : Cpu} (h : impl env ir {} false cycle pc s = .next c p s') : s'.X r = s.X r := by
  have hseq : (r ∉ (ir.fuse.take ir.imm2.toNat).map OpcodeFuse.rd) →
      ∀ f ∈ ir.fuse.take ir.imm2.toNat, ∀ (s : Cpu) v, (s.setX f.rd v).X r = s.X r :=
    fun hfs f hf s v => setX_keeps (fun heq => hfs (List.mem_map.mpr ⟨f, hf, heq⟩)) s v
  simp only [List.mem_cons, List.not_mem_nil, or_false] at hop
  obtain hop | hop | hop | hop | hop := hop
  all_goals simp only [impl, hop, Insn.dests] at h hr
  · refine fuseSeq_keeps (fun f hf s s' hbody => ?_) h
    cases hbody
    exact hseq hr f hf s _
  · cases h
    simp only [List.mem_cons, List.not_mem_nil, or_false, not_or] at hr
    rw [setX_keeps (Ne.symm hr.2), setX_keeps (Ne.symm hr.1)]
  · refine fuseSeq_keeps (fun f hf s s' hbody => ?_) h
    unfold fuseShiftExec at hbody
    split at hbody
    all_goals cases hbody
    · exact hseq hr f hf s _
    · exact hseq hr f hf s _
    · exact hseq hr f hf s _
    · rfl
  · refine fuseSeq_keeps (fun f hf s s' hbody => ?_) h
    cases hbody
    exact hseq hr f hf s _
  · cases h
    exact setX_keeps (fun heq => hr (List.mem_singleton.mpr heq.symm)) s _

include hraise

theorem sysCheckAligned_keeps (cause : SysCause) (addr : Word) (cycle : BitVec 64) (pc : Word) {k : SysM SysCtl}
    (hk : Within (Keeps r) k) : Within (Keeps r) (sysCheckAligned env raise cause addr cycle pc k) :=
  .ite (.bind (sysMisalign_keeps hraise _ _ _ _ _) fun _ => .pure _) hk

theorem sysFuseMem_keeps (cause : SysCause) {access : OpcodeFuse → Word → SysM Unit} (cycle : BitVec 64) (pc : Word)
    {k : SysM SysCtl} (hk : Within (Keeps r) k) {fs : List OpcodeFuse}
    (haccess : ∀ f ∈ fs, ∀ a, Within (Keeps r) (access f a)) :
    Within (Keeps r) (sysFuseMem env raise cause access cycle pc k fs) := by
  induction fs with
  | nil => exact hk
  | cons f fs ih =>
    refine .get_bind fun s => sysCheckAligned_keeps hraise _ _ _ _ ?_
    refine .bind (haccess f (List.mem_cons_self ..) _) fun _ => ?_
    exact ih fun g hg => haccess g (List.mem_cons_of_mem _ hg)

include hdev

theorem sysFuseSw_keeps (f : OpcodeFuse) (a : Word) : Within (Keeps r) (sysFuseSw env raise f a) :=
  .get_bind fun _ => mmuWrite_keeps hdev hraise 4 (fun s a v => (rfl : (s.memWriteW a v).X = s.X)) _ _

theorem sysFuseLw_keeps {f : OpcodeFuse} (hf : f.rd ≠ r) (a : Word) : Within (Keeps r) (sysFuseLw env raise f a) :=
  .bind (mmuRead_keeps hdev hraise _ _ _) fun v => modifyCpu_keeps fun s => setX_keeps hf s v

/-- The fused handlers that may be followed by the next node. -/
theorem sysFuse_keeps {ir : Insn} (hr : r ∉ ir.dests) (hfuse : ir.opcode.isFuse = true)
    (h6 : ir.opcode ≠ .fuse6) (h12 : ir.opcode ≠ .fuse12) (lk : Links) (noNext : Bool) (cycle : BitVec 64)
    (pc : Word) : Within (Keeps r) (sysImpl env raise ir lk noNext cycle pc) := by
  have hpc : Within (Keeps r) (modifyCpu fun s => { s with PC := pc }) := modifyCpu_keeps fun _ => rfl
  have hstop (cycle : BitVec 64) (pc : Word) : Within (Keeps r) (sysFuseNextOrStop noNext cycle pc) :=
    sysFuseNextOrStop_keeps _ _ _
  have hpure (hop : ir.opcode ∈ [Opcode.fuse1, .fuse2, .fuse5, .fuse7, .fuse8]) :
      Within (Keeps r) (sysFusePure env ir noNext cycle pc) :=
    sysFusePure_keeps (fun _ _ _ _ => impl_keeps hr hop) noNext
  unfold sysImpl
  split
  all_goals rename_i hop
  case h_1 | h_2 | h_3 | h_4 | h_5 => exact .bind hpc fun _ => hpure (by simp [hop])
  case h_6 =>
    rw [if_pos hop]
    exact .bind hpc fun _ => sysFuseMem_keeps hraise _ _ _ (hstop _ _) fun f _ a => sysFuseSw_keeps hdev hraise f a
  case h_7 =>
    have h3 : ir.opcode ≠ .fuse3 := by simp [hop]
    rw [if_neg h3]
    simp only [Insn.dests, hop] at hr
    refine .bind hpc fun _ => sysFuseMem_keeps hraise _ _ _ (hstop _ _) fun f hf a => ?_
    exact sysFuseLw_keeps hdev hraise (fun heq => hr (List.mem_map.mpr ⟨f, hf, heq⟩)) a
  case h_8 => exact absurd hop h6
  case h_9 =>
    simp only [Insn.dests, hop, List.mem_cons, List.not_mem_nil, or_false, not_or] at hr
    refine .bind (modifyCpu_keeps fun s => setX_keeps (Ne.symm hr.1) _ _) fun _ => ?_
    refine sysCheckAligned_keeps hraise _ _ _ _ (.bind (mmuRead_keeps hdev hraise _ _ _) fun v => ?_)
    exact .bind (modifyCpu_keeps fun s => setX_keeps (Ne.symm hr.2) s v) fun _ => hstop _ _
  case h_10 =>
    simp only [Insn.dests, hop, List.mem_cons, List.not_mem_nil, or_false] at hr
    refine .bind (modifyCpu_keeps fun s => setX_keeps (Ne.symm hr) _ _) fun _ => ?_
    refine sysCheckAligned_keeps hraise _ _ _ _ (.get_bind fun s => .bind ?_ fun _ => hstop _ _)
    exact mmuWrite_keeps hdev hraise 4 (fun s a v => (rfl : (s.memWriteW a v).X = s.X)) _ _
  case h_11 =>
    simp only [Insn.dests, hop, List.mem_cons, List.not_mem_nil, or_false, not_or] at hr
    refine .bind hpc fun _ => .get_bind fun s => sysCheckAligned_keeps hraise _ _ _ _ ?_
    refine .bind (mmuRead_keeps hdev hraise _ _ _) fun v => .bind ?_ fun _ => .get_bind fun s => ?_
    · exact modifyCpu_keeps fun s => setX_keeps (Ne.symm hr.1) s v
    · refine .ite (.bind ?_ fun _ => hstop _ _) (hstop _ _)
      exact modifyCpu_keeps fun s => setX_keeps (Ne.symm hr.2) s _
  case h_12 => exact absurd hop h12
  case h_13 => simp_all [Opcode.isFuse]

/-- **What a handler that goes on to the next node has done to a register.** -/
theorem sysImpl_reg {ir : Insn} (hr : r ∉ ir.dests) {lk : Links} {cycle c : BitVec 64} {pc p : Word} {s s' : Sys}
    (h : sysImpl env raise ir lk false cycle pc s = some (.next c p, s')) :
    s'.cpu.X r = ir.inPlace r (s.cpu.X r) := by
  cases hfuse : ir.opcode.isFuse with
  | false =>
    rw [sysImpl_of_not_fuse env raise hfuse] at h
    exact sysRvop_reg hdev hraise hr h
  | true =>
    have hplace : ir.inPlace r (s.cpu.X r) = s.cpu.X r := by
      unfold Insn.inPlace
      split <;> simp_all [Opcode.isFuse]
    rw [hplace]
    by_cases h6 : ir.opcode = .fuse6
    · simp only [sysImpl, h6] at h
      obtain ⟨u, s₁, -, h⟩ := bind_eq_some.mp h
      obtain ⟨u', s₂, -, h⟩ := bind_eq_some.mp h
      cases h
    by_cases h12 : ir.opcode = .fuse12
    · simp only [sysImpl, h12] at h
      obtain ⟨u, s₁, -, h⟩ := bind_eq_some.mp h
      exact (sysFuse12_stops ir lk cycle pc _ _ _ h).elim
    · exact sysFuse_keeps hdev hraise hr hfuse h6 h12 lk false cycle pc _ _ _ h

end Handlers

end Rv32emu
