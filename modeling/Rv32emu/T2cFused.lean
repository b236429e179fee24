import Rv32emu.FusionSound
import Rv32emu.T2cAgree

/-!
# Fused nodes in tier 2

The code of `T2C_OP(fuse1)` to `T2C_OP(fuse12)` against `do_fuse1` to `do_fuse12`, in a user-mode build.

* `WordOk`, `Stepwise` : a word that tier-2 code can access, and a run of entries each of which is in order
  in the state its predecessors leave;
* `T2cFusedDefined` : the states in which the code of a fused node means what the interpreter does.
  `fuse9` and `fuse10` do not write the result of their `lui`;
* `forFuse_straight`, `foldlM_stepwise` : the loop over the entries, by induction on them;
* `t2c_fused_agrees_iff` : the comparison, for every node `match_pattern` makes.
-/

namespace Rv32emu

open Llvm

/-! ## Where the code means the same -/

/-- The address of the word does not wrap and is aligned. -/
def WordOk (base imm : Word) : Prop := InRange base imm ∧ (base + imm).toNat % 4 = 0

/-- Every entry is in order in the state that its predecessors leave. -/
def Stepwise (ok : OpcodeFuse → Cpu → Prop) (eff : OpcodeFuse → Cpu → Cpu) : List OpcodeFuse → Cpu → Prop
  | [], _ => True
  | f :: rest, s => ok f s ∧ Stepwise ok eff rest (eff f s)

/-- The word of an entry of `fuse3` or `fuse4`. -/
def entryOk (f : OpcodeFuse) (s : Cpu) : Prop := WordOk (s.X f.rs1) f.imm

/-- What `lw` does. -/
def loadEntry (f : OpcodeFuse) (s : Cpu) : Cpu := s.setX f.rd (s.memReadW (s.X f.rs1 + f.imm))

/-- What `sw` does. -/
def storeEntry (f : OpcodeFuse) (s : Cpu) : Cpu := s.memWriteW (s.X f.rs1 + f.imm) (s.X f.rs2)

/-- The states in which the code of a fused node means what the interpreter does. -/
def T2cFusedDefined (ir : Insn) (s : Cpu) : Prop :=
  match ir.opcode with
  | .fuse3 => ∀ f ∈ ir.fused, entryOk f s
  | .fuse4 => Stepwise entryOk loadEntry ir.fused s
  | .fuse6 => s.LengthOk false
  | .fuse9 => (ir.imm + ir.imm2).toNat % 4 = 0 ∧ (ir.rd = ir.rs2 ∨ s.X ir.rd = ir.imm)
  | .fuse10 => (ir.imm + ir.imm2).toNat % 4 = 0 ∧ s.X ir.rd = ir.imm
  | .fuse11 => WordOk (s.X ir.rs1) ir.imm
  | _ => True

/-- A run whose steps change nothing that the condition reads. -/
theorem stepwise_iff_forall {ok : OpcodeFuse → Cpu → Prop} (eff : OpcodeFuse → Cpu → Cpu)
    (hframe : ∀ f g s, ok g (eff f s) ↔ ok g s) (l : List OpcodeFuse) (s : Cpu) :
    Stepwise ok eff l s ↔ ∀ f ∈ l, ok f s := by
  induction l generalizing s with
  | nil => simp [Stepwise]
  | cons f rest ih => simp [Stepwise, ih, hframe]

theorem stepwise_of_forall {ok : OpcodeFuse → Cpu → Prop} {eff : OpcodeFuse → Cpu → Cpu} (l : List OpcodeFuse)
    (hok : ∀ f ∈ l, ∀ s, ok f s) (s : Cpu) : Stepwise ok eff l s := by
  induction l generalizing s with
  | nil => trivial
  | cons f rest ih => exact ⟨hok f (by simp) s, ih (fun g hg => hok g (List.mem_cons_of_mem f hg)) (eff f s)⟩

/-! ## Addresses -/

theorem guestOffset_hostAddr_none (mb : BitVec 64) {base imm : Word} (h : ¬ WordOk base imm) :
    guestOffset mb 32 (hostAddr mb base imm) = none := by
  by_cases hin : InRange base imm
  · unfold guestOffset
    rw [hostAddr_sub mb hin]
    refine if_neg fun hoff => h ⟨hin, ?_⟩
    have hal := hoff.2
    rwa [memOff, BitVec.toNat_setWidth_of_le (by decide)] at hal
  · unfold guestOffset
    refine if_neg fun hoff => hin ?_
    have hlt := hoff.1
    have hsum : hostAddr mb base imm - mb = base.setWidth 64 + imm.signExtend 64 := by
      unfold hostAddr
      rw [← BitVec.add_assoc, BitVec.add_sub_cancel]
    have hb := base.isLt
    have hi := imm.isLt
    rw [hsum, BitVec.toNat_add, BitVec.toNat_setWidth, BitVec.toNat_signExtend, BitVec.toNat_setWidth,
      BitVec.msb_eq_decide] at hlt
    unfold InRange
    rw [BitVec.toInt_eq_toNat_cond]
    by_cases hm : 2 ^ (32 - 1) ≤ imm.toNat
    · simp only [hm, decide_true, if_true] at hlt
      split <;> omega
    · simp only [hm, decide_false, Bool.false_eq_true, if_false] at hlt
      split <;> omega

/-- An address that is known when the code is emitted is never wrong. -/
theorem guestOffset_abs (mb : BitVec 64) (a : Word) :
    guestOffset mb 32 (a.setWidth 64 + mb) = if a.toNat % 4 = 0 then some (memOff a) else none := by
  have hoff : a.setWidth 64 + mb - mb = memOff a := BitVec.add_sub_cancel ..
  have hn : (memOff a).toNat = a.toNat := BitVec.toNat_setWidth_of_le (by decide)
  have hlt := a.isLt
  unfold guestOffset
  simp only [hoff, hn, hlt, true_and]

/-! ## Loops over the entries -/

section Loops

variable {env : Env} {mb : BitVec 64} {body : OpcodeFuse → T2cBuild Handed}
  {g : OpcodeFuse → T2cState → Option T2cState} {ok : OpcodeFuse → Cpu → Prop} {eff : OpcodeFuse → Cpu → Cpu}

/-- `t2cOp` without the handler. -/
def countInsn : T2cBuild Unit := do
  let cnt ← buildLoad2 0 (.int 64) counterPtr
  let cnt ← buildBin 0 .add cnt (constInt 1)
  buildStore 0 cnt counterPtr

theorem t2cOp_straight {code : T2cBuild Handed} {handed : Handed} {g : T2cState → Option T2cState}
    (h : Straight (t2cHost env mb) code handed g) :
    Straight (t2cHost env mb) (t2cOp code) handed fun s => g s.tick := by
  have hcount : Straight (t2cHost env mb) countInsn () fun s => some s.tick :=
    straight_of_emitted 2 (fun _ _ _ => rfl) rfl fun _ _ => rfl
  have hbind : Straight (t2cHost env mb) (countInsn >>= fun _ => code) handed fun s => (some s.tick).bind g :=
    hcount.bind h
  exact hbind

/-- The code of the entries, one after the other. -/
theorem forFuse_straight (l : List OpcodeFuse) (h : ∀ f ∈ l, Straight (t2cHost env mb) (body f) {} (g f)) :
    Straight (t2cHost env mb) (forFuse body l) ({} : Handed) fun s => l.foldlM (fun s f => g f s) s := by
  induction l with
  | nil => exact straight_pure ({} : Handed)
  | cons f rest ih => exact (h f (by simp)).bind (ih fun x hx => h x (List.mem_cons_of_mem f hx))

theorem t2cVisible_straight {cfg : T2cEnv} {lk : T2cLinks} {ir : Insn} {code : T2cBuild Handed}
    {g : T2cState → Option T2cState} (hcode : t2c cfg lk ir = t2cOp code)
    (h : Straight (t2cHost env cfg.memBase) code {} g) (r : Regs HostPtr) (s : T2cState) :
    t2cVisible env cfg lk ir r s = (g s.tick).map fun s' => s'.cpu.visibleAt (ir.pc + ir.nodeLen) := by
  obtain ⟨f, hf, hexec⟩ := (t2cOp_straight h).exec
  unfold t2cVisible t2cRun
  rw [hcode, hf, Option.bind_some, hexec r s]
  cases g s.tick with
  | none => rfl
  | some s' => rfl

theorem storeImm_straight (rd : Reg) (imm : Word) :
    Straight (t2cHost env mb) (t2cStoreImm rd imm) {} fun s => some (s.setX rd imm) :=
  straight_of_emitted 1 (fun _ _ _ => rfl) rfl fun _ _ => rfl

/-- Plain code that goes on with the value of one operation. -/
theorem plain_eval {w : Nat} {s : T2cState} {k : BitVec w → T2cState → Option (Regs HostPtr × T2cState)}
    {f : BitVec w → T2cState} (o : Option (BitVec w)) (h : ∀ v, (k v s).map Prod.snd = some (f v)) :
    ((o.map (done s) : Option (Returned (BitVec w) T2cState Word)).bind (Returned.plain k)).map Prod.snd =
      o.map f := by
  cases o with
  | none => rfl
  | some v => exact h v

theorem aluImm_straight (op : BinOp) (rs rd : Reg) (imm : Word) :
    Straight (t2cHost env mb) (t2cAluImm op rs rd imm) {} fun s => (op.eval (s.cpu.X rs) imm).map (s.setX rd) := by
  refine straight_of_emitted 4 (fun _ _ _ => rfl) rfl fun r s => ?_
  exact plain_eval _ fun _ => rfl

/-- Plain code that goes on with a word loaded from guest memory. -/
theorem plain_load {s : T2cState} {k : Word → T2cState → Option (Regs HostPtr × T2cState)}
    {read : BitVec 64 → Word} {f : BitVec 64 → T2cState} (o : Option (BitVec 64))
    (h : ∀ off, (k (read off) s).map Prod.snd = some (f off)) :
    (((o.map read).map (done s) : Option (Returned Word T2cState Word)).bind (Returned.plain k)).map Prod.snd =
      o.map f := by
  cases o with
  | none => rfl
  | some off => exact h off

theorem load_straight (chk : Word → Bool) (base rd : Reg) (imm : Word) :
    Straight (t2cHost env mb) (t2cLoad ⟨false, mb, chk⟩ .mmuReadW 32 .sext base rd imm) {} fun s =>
      (guestOffset mb 32 (hostAddr mb (s.cpu.X base) imm)).map fun off => s.setX rd (s.cpu.mem.readW off) := by
  refine straight_of_emitted 7 (fun _ _ _ => rfl) rfl fun r s => ?_
  exact plain_load _ fun _ => rfl

/-- Plain code that ends with a store to guest memory. -/
theorem plain_store {k : T2cState → Option (Regs HostPtr × T2cState)} {f : BitVec 64 → T2cState}
    (o : Option (BitVec 64)) (h : ∀ off, (k (f off)).map Prod.snd = some (f off)) :
    ((o.map f).bind k).map Prod.snd = o.map f := by
  cases o with
  | none => rfl
  | some off => exact h off

theorem store_straight (chk : Word → Bool) (base rs2 : Reg) (imm : Word) :
    Straight (t2cHost env mb) (t2cStore ⟨false, mb, chk⟩ .mmuWriteW 32 base rs2 imm) {} fun s =>
      (guestOffset mb 32 (hostAddr mb (s.cpu.X base) imm)).map fun off =>
        s.withMem (s.cpu.mem.writeW off (s.cpu.X rs2)) := by
  refine straight_of_emitted 7 (fun _ _ _ => rfl) rfl fun r s => ?_
  exact plain_store _ fun _ => rfl

/-- The entries that are in order are executed one after the other; one that is not makes the code undefined. -/
theorem foldlM_stepwise (l : List OpcodeFuse)
    (hdef : ∀ f ∈ l, ∀ s, ok f s.cpu → ∃ s', g f s = some s' ∧ s'.cpu = eff f s.cpu)
    (hundef : ∀ f ∈ l, ∀ s, ¬ ok f s.cpu → g f s = none) (s : T2cState) :
    (Stepwise ok eff l s.cpu → ∃ s', l.foldlM (fun s f => g f s) s = some s' ∧
      s'.cpu = l.foldl (fun s f => eff f s) s.cpu) ∧
    (¬ Stepwise ok eff l s.cpu → l.foldlM (fun s f => g f s) s = none) := by
  induction l generalizing s with
  | nil => exact ⟨fun _ => ⟨s, rfl, rfl⟩, fun h => absurd trivial h⟩
  | cons f rest ih =>
    have ih' := ih (fun x hx => hdef x (List.mem_cons_of_mem f hx)) fun x hx => hundef x (List.mem_cons_of_mem f hx)
    rw [List.foldlM_cons]
    by_cases hok : ok f s.cpu
    · obtain ⟨s1, hg, hcpu⟩ := hdef f (by simp) s hok
      obtain ⟨hall, hsome⟩ := ih' s1
      rw [hcpu] at hall hsome
      rw [hg]
      exact ⟨fun h => hall h.2, fun h => hsome fun hrest => h ⟨hok, hrest⟩⟩
    · rw [hundef f (by simp) s hok]
      exact ⟨fun h => absurd h.1 hok, fun _ => rfl⟩

theorem foldlM_ok_of_stepwise {body : FuseBody} (l : List OpcodeFuse)
    (hbody : ∀ f ∈ l, ∀ s, ok f s → body f s = .ok (eff f s)) {s : Cpu} (h : Stepwise ok eff l s) :
    l.foldlM (fun s f => body f s) s = .ok (l.foldl (fun s f => eff f s) s) := by
  induction l generalizing s with
  | nil => rfl
  | cons f rest ih =>
    rw [List.foldlM_cons, hbody f (by simp) s h.1]
    exact ih (fun x hx => hbody x (List.mem_cons_of_mem f hx)) h.2

end Loops

/-! ## Runs -/

section Runs

variable {env : Env} {mb : BitVec 64} {chk : Word → Bool} {lk : T2cLinks} {ir : Insn} {r : Regs HostPtr}
  {s : T2cState} {links : Links} {noNext : Bool} {cycle : BitVec 64}

/-- The code of a run means what the interpreter does exactly if every entry is in order. -/
theorem t2cAgrees_seq {p : Opcode → Bool} {op : Opcode} (hseq : SeqFusion p op) (hop : ir.opcode = op)
    {body : OpcodeFuse → T2cBuild Handed} {g : OpcodeFuse → T2cState → Option T2cState}
    {ok : OpcodeFuse → Cpu → Prop} {eff : OpcodeFuse → Cpu → Cpu}
    (hcode : t2c ⟨false, mb, chk⟩ lk ir = t2cOp (forFuse body ir.fused))
    (hstraight : ∀ f ∈ ir.fused, Straight (t2cHost env mb) (body f) {} (g f))
    (hdef : ∀ f ∈ ir.fused, ∀ s, ok f s.cpu → ∃ s', g f s = some s' ∧ s'.cpu = eff f s.cpu)
    (hundef : ∀ f ∈ ir.fused, ∀ s, ¬ ok f s.cpu → g f s = none)
    (hbody : ∀ f ∈ ir.fused, ∀ s, ok f s → seqBody env op f s = .ok (eff f s)) :
    T2cAgrees env ⟨false, mb, chk⟩ lk ir r s links noNext cycle ↔ Stepwise ok eff ir.fused s.cpu := by
  have hvis := t2cVisible_straight hcode (forFuse_straight ir.fused hstraight) r s
  obtain ⟨hall, hnone⟩ := foldlM_stepwise ir.fused hdef hundef s.tick
  unfold T2cAgrees
  rw [hvis]
  constructor
  · intro h
    by_contra hno
    rw [hnone hno] at h
    cases h
  · intro h
    obtain ⟨s', hs', hcpu⟩ := hall h
    have hlen : ir.nodeLen = ir.imm2 * 4 := by
      unfold Insn.nodeLen
      cases hseq <;> rw [hop]
    have himpl : impl env ir links noNext cycle ir.pc s.cpu =
        fuseNextOrStop noNext (cycle + ir.imm2.signExtend 64) (ir.pc + ir.imm2 * 4) s'.cpu := by
      rw [hseq.impl_eq env ir hop, hcpu]
      unfold fuseSeq
      rw [show ir.fuse.take ir.imm2.toNat = ir.fused from rfl, foldlM_ok_of_stepwise ir.fused hbody h]
      rfl
    rw [hs', himpl, hlen]
    cases noNext <;> rfl

theorem t2cAgrees_seq_total {p : Opcode → Bool} {op : Opcode} (hseq : SeqFusion p op) (hop : ir.opcode = op)
    {body : OpcodeFuse → T2cBuild Handed} {g : OpcodeFuse → T2cState → T2cState} (eff : OpcodeFuse → Cpu → Cpu)
    (hcode : t2c ⟨false, mb, chk⟩ lk ir = t2cOp (forFuse body ir.fused))
    (hstraight : ∀ f ∈ ir.fused, Straight (t2cHost env mb) (body f) {} fun s => some (g f s))
    (hcpu : ∀ f s, (g f s).cpu = eff f s.cpu)
    (hbody : ∀ f ∈ ir.fused, ∀ s, seqBody env op f s = .ok (eff f s)) :
    T2cAgrees env ⟨false, mb, chk⟩ lk ir r s links noNext cycle := by
  have hall : Stepwise (fun _ _ => True) eff ir.fused s.cpu := stepwise_of_forall _ (fun _ _ _ => trivial) _
  refine (t2cAgrees_seq hseq hop hcode hstraight ?_ ?_ ?_).mpr hall
  · exact fun f _ s _ => ⟨_, rfl, hcpu f s⟩
  · exact fun f _ s h => absurd trivial h
  · exact fun f hf s _ => hbody f hf s

theorem checkAligned_of_wordOk {cause : Cause} {base imm : Word} (h : WordOk base imm) (s : Cpu) :
    checkAligned env cause (base + imm) s = .ok s := by
  unfold checkAligned
  rw [not_misaligned h.2 (.inr (.inr ⟨rfl, rfl⟩)), if_neg Bool.false_ne_true]

theorem t2cAgrees_fuse1 (hop : ir.opcode = .fuse1) :
    T2cAgrees env ⟨false, mb, chk⟩ lk ir r s links noNext cycle := by
  refine t2cAgrees_seq_total .lui hop (fun f s => s.setX f.rd f.imm) ?_
    (fun f _ => storeImm_straight f.rd f.imm) (fun _ _ => rfl) fun _ _ _ => rfl
  unfold t2c
  rw [hop]

theorem t2cAgrees_fuse7 (hop : ir.opcode = .fuse7) :
    T2cAgrees env ⟨false, mb, chk⟩ lk ir r s links noNext cycle := by
  refine t2cAgrees_seq_total .addi hop (fun f s => s.setX f.rd (s.X f.rs1 + f.imm)) ?_
    (fun f _ => aluImm_straight .add f.rs1 f.rd f.imm) (fun _ _ => rfl) fun _ _ _ => rfl
  unfold t2c
  rw [hop]

/-- What `fuse_shift_exec` does. -/
def shiftEntry (f : OpcodeFuse) (s : Cpu) : Cpu := (fuseShiftExec f s).toOption.getD s

theorem fuseShiftExec_ok (f : OpcodeFuse) (s : Cpu) : fuseShiftExec f s = .ok (shiftEntry f s) := by
  unfold shiftEntry fuseShiftExec
  split <;> rfl

theorem fuseShift_straight {f : OpcodeFuse} (hf : isShiftImm f.opcode = true) :
    Straight (t2cHost env mb) (t2cFuseShift f) {} fun s => some { s.tick with cpu := shiftEntry f s.cpu } := by
  obtain ⟨imm, rd, rs1, rs2, opcode⟩ := f
  have hfun : ∀ {op : BinOp} {v : Cpu → Word}, (∀ s : Cpu, op.eval (s.X rs1) (imm &&& 0x1f) = some (v s)) →
      Straight (t2cHost env mb) (t2cOp (t2cAluImm op rs1 rd (imm &&& 0x1f))) {} fun s =>
        some (s.tick.setX rd (v s.cpu)) := by
    intro op v hv
    have h : Straight (t2cHost env mb) (t2cOp (t2cAluImm op rs1 rd (imm &&& 0x1f))) {} _ :=
      t2cOp_straight (aluImm_straight op rs1 rd (imm &&& 0x1f))
    simp only [T2cState.tick, hv, Option.map_some] at h
    exact h
  cases opcode with
  | slli => exact hfun fun s => shl_defined ..
  | srli => exact hfun fun s => lshr_defined ..
  | srai => exact hfun fun s => ashr_defined ..
  | _ => cases hf

theorem t2cAgrees_fuse5 (hop : ir.opcode = .fuse5) (hshift : ∀ f ∈ ir.fused, isShiftImm f.opcode = true) :
    T2cAgrees env ⟨false, mb, chk⟩ lk ir r s links noNext cycle := by
  refine t2cAgrees_seq_total .shift hop shiftEntry ?_ (fun f hf => fuseShift_straight (hshift f hf))
    (fun _ _ => rfl) fun f _ s => fuseShiftExec_ok f s
  unfold t2c
  rw [hop]

theorem t2cAgrees_fuse4 (hop : ir.opcode = .fuse4) :
    T2cAgrees env ⟨false, mb, chk⟩ lk ir r s links noNext cycle ↔
      Stepwise entryOk loadEntry ir.fused s.cpu := by
  refine t2cAgrees_seq .lw hop ?_ (fun f _ => load_straight chk f.rs1 f.rd f.imm) ?_ ?_ ?_
  · unfold t2c
    rw [hop]
  · intro f _ s hf
    exact ⟨_, congrArg (Option.map _) (guestOffset_hostAddr mb hf.1 hf.2), rfl⟩
  · intro f _ s hf
    exact congrArg (Option.map _) (guestOffset_hostAddr_none mb hf)
  · intro f _ s hf
    simp only [seqBody, fuseLw, checkAligned_of_wordOk hf]
    rfl

theorem t2cAgrees_fuse3 (hop : ir.opcode = .fuse3) :
    T2cAgrees env ⟨false, mb, chk⟩ lk ir r s links noNext cycle ↔ ∀ f ∈ ir.fused, entryOk f s.cpu := by
  rw [← stepwise_iff_forall storeEntry fun f g s => Iff.rfl]
  refine t2cAgrees_seq .sw hop ?_ (fun f _ => store_straight chk f.rs1 f.rs2 f.imm) ?_ ?_ ?_
  · unfold t2c
    rw [hop]
  · intro f _ s hf
    exact ⟨_, congrArg (Option.map _) (guestOffset_hostAddr mb hf.1 hf.2), rfl⟩
  · intro f _ s hf
    exact congrArg (Option.map _) (guestOffset_hostAddr_none mb hf)
  · intro f _ s hf
    simp only [seqBody, fuseSw, checkAligned_of_wordOk hf]
    rfl

end Runs

/-! ## Pairs -/

section Pairs

variable {env : Env} {cfg : T2cEnv} {mb : BitVec 64} {chk : Word → Bool} {lk : T2cLinks} {ir : Insn}
  {r : Regs HostPtr} {s : T2cState} {links : Links} {noNext : Bool} {cycle : BitVec 64}

theorem fuseNextOrStop_visible (env : Env) (noNext : Bool) (cycle : BitVec 64) (pc : Word) (s : Cpu) :
    (fuseNextOrStop noNext cycle pc s).visible env = s.visibleAt pc := by
  cases noNext <;> rfl

theorem run_fuse2 (env : Env) (cfg : T2cEnv) (ir : Insn) (r : Regs HostPtr) (s : T2cState) :
    t2cRun env cfg (t2cOp (t2cFuse2 ir)) r s = some ({}, .fall 0, (s.tick.setX ir.rd ir.imm).setX ir.rs2
      ((s.cpu.setX ir.rd ir.imm).X ir.rs1 + (s.cpu.setX ir.rd ir.imm).X ir.rd)) := rfl

theorem t2cAgrees_fuse2 (hop : ir.opcode = .fuse2) : T2cAgrees env cfg lk ir r s links noNext cycle := by
  obtain ⟨imm, rd, rs1, rs2, opcode, shamt, rm, imm2, fuse, pc⟩ := ir
  obtain rfl : opcode = .fuse2 := hop
  unfold T2cAgrees
  rw [t2cVisible_of_run (pc + 8) (run_fuse2 env cfg ⟨imm, rd, rs1, rs2, .fuse2, shamt, rm, imm2, fuse, pc⟩ r s) ?_ ?_,
    add_comm (Cpu.X _ rs1)]
  · exact congrArg some (fuseNextOrStop_visible ..).symm
  · rfl
  · rfl

theorem t2cAgrees_fuse8 (hop : ir.opcode = .fuse8) : T2cAgrees env cfg lk ir r s links noNext cycle := by
  obtain ⟨imm, rd, rs1, rs2, opcode, shamt, rm, imm2, fuse, pc⟩ := ir
  obtain rfl : opcode = .fuse8 := hop
  unfold T2cAgrees
  rw [t2cVisible_of_run (pc + 8) (run_storeImm env cfg r s rd (imm + imm2)) ?_ ?_]
  · exact congrArg some (fuseNextOrStop_visible ..).symm
  · rfl
  · rfl

theorem not_t2cAgrees_of_none {code : T2cBuild Handed} (hcode : t2c cfg lk ir = code)
    (hrun : t2cRun env cfg code r s = none) : ¬ T2cAgrees env cfg lk ir r s links noNext cycle := by
  intro h
  unfold T2cAgrees t2cVisible at h
  rw [hcode, hrun] at h
  cases h

theorem run_fuse9 (env : Env) (mb : BitVec 64) (chk : Word → Bool) (ir : Insn) (r : Regs HostPtr)
    (s : T2cState) :
    t2cRun env ⟨false, mb, chk⟩ (t2cOp (t2cFuse9 ⟨false, mb, chk⟩ ir)) r s =
      (guestOffset mb 32 ((ir.imm + ir.imm2).setWidth 64 + mb)).map fun off =>
        wrote s ir.rs2 (s.cpu.mem.readW off) :=
  map_load _ fun _ => rfl

theorem run_fuse10 (env : Env) (mb : BitVec 64) (chk : Word → Bool) (ir : Insn) (r : Regs HostPtr)
    (s : T2cState) :
    t2cRun env ⟨false, mb, chk⟩ (t2cOp (t2cFuse10 ⟨false, mb, chk⟩ ir)) r s =
      (guestOffset mb 32 ((ir.imm + ir.imm2).setWidth 64 + mb)).map fun off =>
        stored s (s.cpu.mem.writeW off (s.cpu.X ir.rs1)) :=
  map_store _ fun _ => rfl

theorem run_fuse11 (env : Env) (mb : BitVec 64) (chk : Word → Bool) (ir : Insn) (r : Regs HostPtr)
    (s : T2cState) :
    t2cRun env ⟨false, mb, chk⟩ (t2cOp (t2cFuse11 ⟨false, mb, chk⟩ ir)) r s =
      (guestOffset mb 32 (hostAddr mb (s.cpu.X ir.rs1) ir.imm)).map fun off =>
        ({}, .fall 0, (s.tick.setX ir.rd (s.cpu.mem.readW off)).setX ir.rs1 (s.cpu.X ir.rs1 + ir.imm2)) :=
  map_load _ fun _ => rfl

theorem checkAligned_of_aligned {cause : Cause} {a : Word} (h : a.toNat % 4 = 0) (s : Cpu) :
    checkAligned env cause a s = .ok s := by
  unfold checkAligned
  rw [not_misaligned h (.inr (.inr ⟨rfl, rfl⟩)), if_neg Bool.false_ne_true]

/-- The result of the `lui` is visible unless it is overwritten or was there before. -/
theorem visibleAt_lui_iff (s : Cpu) (rd rs2 : Reg) (imm v pc : Word) :
    (s.setX rs2 v).visibleAt pc = ((s.setX rd imm).setX rs2 v).visibleAt pc ↔ rd = rs2 ∨ s.X rd = imm := by
  unfold Cpu.visibleAt Cpu.setX
  simp only [Visible.mk.injEq, and_true]
  constructor
  · intro h
    by_cases hrd : rd = rs2
    · exact .inl hrd
    · have hx := congrFun h rd
      rw [Function.update_of_ne hrd, Function.update_of_ne hrd, Function.update_self] at hx
      exact .inr hx
  · rintro (rfl | himm)
    · rw [Function.update_idem]
    · rw [← himm, Function.update_eq_self]

theorem t2cAgrees_fuse9_iff (hop : ir.opcode = .fuse9) :
    T2cAgrees env ⟨false, mb, chk⟩ lk ir r s links noNext cycle ↔
      (ir.imm + ir.imm2).toNat % 4 = 0 ∧ (ir.rd = ir.rs2 ∨ s.cpu.X ir.rd = ir.imm) := by
  obtain ⟨imm, rd, rs1, rs2, opcode, shamt, rm, imm2, fuse, pc⟩ := ir
  obtain rfl : opcode = .fuse9 := hop
  have hrun := run_fuse9 env mb chk ⟨imm, rd, rs1, rs2, .fuse9, shamt, rm, imm2, fuse, pc⟩ r s
  rw [guestOffset_abs] at hrun
  by_cases hal : (imm + imm2).toNat % 4 = 0
  · rw [if_pos hal] at hrun
    have himpl : (impl env ⟨imm, rd, rs1, rs2, .fuse9, shamt, rm, imm2, fuse, pc⟩ links noNext cycle pc
        s.cpu).visible env =
        ((s.cpu.setX rd imm).setX rs2 (s.cpu.memReadW (imm + imm2))).visibleAt (pc + 8) := by
      simp only [impl, doFuse9, checkAligned_of_aligned hal]
      exact fuseNextOrStop_visible ..
    unfold T2cAgrees
    rw [t2cVisible_of_run (pc + 8) hrun ?_ ?_, himpl, Option.some_inj, and_iff_right hal]
    · exact visibleAt_lui_iff ..
    · rfl
    · rfl
  · rw [if_neg hal] at hrun
    exact iff_of_false (not_t2cAgrees_of_none rfl hrun) fun h => hal h.1

theorem t2cAgrees_fuse10_iff (hop : ir.opcode = .fuse10) :
    T2cAgrees env ⟨false, mb, chk⟩ lk ir r s links noNext cycle ↔
      (ir.imm + ir.imm2).toNat % 4 = 0 ∧ s.cpu.X ir.rd = ir.imm := by
  obtain ⟨imm, rd, rs1, rs2, opcode, shamt, rm, imm2, fuse, pc⟩ := ir
  obtain rfl : opcode = .fuse10 := hop
  have hrun := run_fuse10 env mb chk ⟨imm, rd, rs1, rs2, .fuse10, shamt, rm, imm2, fuse, pc⟩ r s
  rw [guestOffset_abs] at hrun
  by_cases hal : (imm + imm2).toNat % 4 = 0
  · rw [if_pos hal] at hrun
    have himpl : (impl env ⟨imm, rd, rs1, rs2, .fuse10, shamt, rm, imm2, fuse, pc⟩ links noNext cycle pc
        s.cpu).visible env =
        ((s.cpu.setX rd imm).memWriteW (imm + imm2) ((s.cpu.setX rd imm).X rs1)).visibleAt (pc + 8) := by
      simp only [impl, doFuse10, checkAligned_of_aligned hal]
      exact fuseNextOrStop_visible ..
    unfold T2cAgrees
    rw [t2cVisible_of_run (pc + 8) hrun ?_ ?_, himpl, Option.some_inj, and_iff_right hal]
    · constructor
      · intro h
        have hx := congrFun (congrArg Visible.X h) rd
        exact hx.trans (Function.update_self ..)
      · intro himm
        have hself : s.cpu.setX rd imm = s.cpu := by
          unfold Cpu.setX
          rw [show imm = s.cpu.X rd from himm.symm, Function.update_eq_self]
        rw [hself]
        rfl
    · rfl
    · rfl
  · rw [if_neg hal] at hrun
    exact iff_of_false (not_t2cAgrees_of_none rfl hrun) fun h => hal h.1

theorem t2cAgrees_fuse11_iff (hop : ir.opcode = .fuse11) (hne : ir.rd ≠ ir.rs1) :
    T2cAgrees env ⟨false, mb, chk⟩ lk ir r s links noNext cycle ↔ WordOk (s.cpu.X ir.rs1) ir.imm := by
  obtain ⟨imm, rd, rs1, rs2, opcode, shamt, rm, imm2, fuse, pc⟩ := ir
  obtain rfl : opcode = .fuse11 := hop
  have hrun := run_fuse11 env mb chk ⟨imm, rd, rs1, rs2, .fuse11, shamt, rm, imm2, fuse, pc⟩ r s
  by_cases hok : WordOk (s.cpu.X rs1) imm
  · rw [guestOffset_hostAddr mb hok.1 hok.2] at hrun
    refine iff_of_true ?_ hok
    have hbase : (s.cpu.setX rd (s.cpu.memReadW (s.cpu.X rs1 + imm))).X rs1 = s.cpu.X rs1 :=
      Cpu.setX_of_ne s.cpu (Ne.symm hne) _
    have himpl : (impl env ⟨imm, rd, rs1, rs2, .fuse11, shamt, rm, imm2, fuse, pc⟩ links noNext cycle pc
        s.cpu).visible env =
        ((s.cpu.setX rd (s.cpu.memReadW (s.cpu.X rs1 + imm))).setX rs1 (s.cpu.X rs1 + imm2)).visibleAt (pc + 8) := by
      simp only [impl, doFuse11, checkAligned_of_wordOk hok, hbase]
      exact fuseNextOrStop_visible ..
    unfold T2cAgrees
    rw [t2cVisible_of_run (pc + 8) hrun ?_ ?_, himpl]
    · rfl
    · rfl
    · rfl
  · rw [guestOffset_hostAddr_none mb hok] at hrun
    exact iff_of_false (not_t2cAgrees_of_none rfl hrun) hok

theorem run_storeTrap (env : Env) (cfg : T2cEnv) (r : Regs HostPtr) (s : T2cState) (rd : Reg) (imm pc : Word)
    {f : IoFn} {cpu : Cpu} (h : ioTrap env f ((s.setX rd imm).setPC pc).cpu = some cpu) :
    t2cRun env cfg (t2cOp (do
        storeImm32 0 imm (← genAddr 0 (.X rd))
        t2cTrap f pc)) r s = some ({}, .ret, ({ s.tick with cpu } : T2cState).flush) :=
  map_call h rfl

/-- The trap handler finds in `rv->compressed` what was there before the node. -/
theorem t2cAgrees_fuse6_iff (henv : env.SyscallLocal) (hop : ir.opcode = .fuse6) :
    T2cAgrees env cfg lk ir r s links noNext cycle ↔ s.cpu.LengthOk false := by
  obtain ⟨imm, rd, rs1, rs2, opcode, shamt, rm, imm2, fuse, pc⟩ := ir
  obtain rfl : opcode = .fuse6 := hop
  let s1 := ((s.setX regA7 imm).setPC (pc + 4)).cpu
  have hplain : Trap.Plain ⟨.ecallM, 0, .syscall⟩ := ⟨.inl rfl, .inl rfl⟩
  have hrun := run_storeTrap env cfg r s regA7 imm (pc + 4)
    (show ioTrap env .onEcall s1 = some (Trap.take env ⟨.ecallM, 0, .syscall⟩ s1).1 from rfl)
  have himpl : impl env ⟨imm, rd, rs1, rs2, .fuse6, shamt, rm, imm2, fuse, pc⟩ links noNext cycle pc s.cpu =
      .trap ⟨.ecallM, 0, .syscall⟩ (s1.tweak false (cycle + 2)) := rfl
  unfold T2cAgrees
  rw [t2cVisible_of_run _ hrun ?_ ?_, himpl, Option.some_inj]
  · exact hplain.take_agrees_iff henv
  · rfl
  · rfl

theorem run_fuse12 (env : Env) (cfg : T2cEnv) (lk : T2cLinks) (ir : Insn) (r : Regs HostPtr) (s : T2cState) :
    t2cRun env cfg (t2cOp (t2cFuse12 cfg lk ir)) r s =
      some (branched (s.tick.setX ir.rd (s.cpu.X ir.rs1 + ir.imm)) (cfg.valid lk.taken) (cfg.valid lk.untaken)
        (Pred.eval (s.cpu.X ir.rs1 + ir.imm) 0 .ne) (ir.pc + 4 + ir.imm2) (ir.pc + 8)) := by
  unfold t2cFuse12
  generalize cfg.valid lk.taken = tk
  generalize cfg.valid lk.untaken = utk
  cases tk <;> cases utk <;> exact map_ite rfl rfl

theorem doFuse12_visible (env : Env) (ir : Insn) (links : Links) (cycle : BitVec 64) (s : Cpu) :
    (doFuse12 ir links cycle ir.pc s).visible env = (s.setX ir.rd (s.X ir.rs1 + ir.imm)).visibleAt
      (if Pred.eval (s.X ir.rs1 + ir.imm) 0 .ne then ir.pc + 4 + ir.imm2 else ir.pc + 8) := by
  simp only [doFuse12, Cpu.setX_self]
  by_cases hw : s.X ir.rs1 + ir.imm = 0
  · rw [hw]
    cases links.untaken <;> rfl
  · have hne : Pred.eval (s.X ir.rs1 + ir.imm) 0 .ne = true := bne_iff_ne.mpr hw
    rw [if_pos hw, hne, if_pos rfl, BitVec.add_assoc]
    cases links.taken <;> rfl

theorem t2cAgrees_fuse12 (hop : ir.opcode = .fuse12) (hlk : lk.Right ir) :
    T2cAgrees env cfg lk ir r s links noNext cycle := by
  have hcode : t2c cfg lk ir = t2cOp (t2cFuse12 cfg lk ir) := by
    unfold t2c
    rw [hop]
  have htaken : ir.linkTaken = ir.pc + 4 + ir.imm2 := if_pos hop
  have huntaken : ir.linkUntaken = ir.pc + 8 := if_pos hop
  have himpl : impl env ir links noNext cycle ir.pc s.cpu = doFuse12 ir links cycle ir.pc s.cpu := by
    unfold impl
    rw [hop]
  unfold T2cAgrees
  rw [t2cVisible_branch hcode (run_fuse12 env cfg lk ir r s) T2cEnv.valid_isSome T2cEnv.valid_isSome
    (fun pc h => (hlk.taken pc h).trans htaken) fun pc h => (hlk.untaken pc h).trans huntaken, himpl,
    doFuse12_visible]
  rfl

end Pairs

/-! ## The table -/

/-- **Tier-2 code of a fused node means what the interpreter does exactly where it is defined.** -/
theorem t2c_fused_agrees_iff {env : Env} (henv : env.SyscallLocal) {cfg : T2cEnv} (hcfg : cfg.system = false)
    {alloc : Word → Bool} {irs : List Insn} (hun : Unfused irs) {ir : Insn} (hir : ir ∈ matchPattern alloc irs)
    (hfuse : ir.opcode.isFuse = true) {lk : T2cLinks} (hlk : lk.Right ir) (r : Regs HostPtr) (s : T2cState)
    (links : Links) (noNext : Bool) (cycle : BitVec 64) :
    T2cAgrees env cfg lk ir r s links noNext cycle ↔ T2cFusedDefined ir s.cpu := by
  obtain ⟨sys, mb, chk⟩ := cfg
  obtain rfl : sys = false := hcfg
  rw [← matchGroups_fst, List.mem_map] at hir
  obtain ⟨⟨node, l⟩, hg, rfl⟩ := hir
  have hfrom := matchGroups_fusedFrom alloc irs _ hg
  have hmem : ∀ x ∈ l, x ∈ irs := by
    intro x hx
    rw [← matchGroups_snd alloc irs]
    exact List.mem_flatMap.mpr ⟨_, hg, hx⟩
  change FusedFrom node l at hfrom
  cases hfrom with
  | same =>
    have hnot := hun.not_fuse node (hmem node (by simp))
    rw [hfuse] at hnot
    cases hnot
  | seq hseq ir l hall hlen =>
    cases hseq with
    | lui => exact iff_of_true (t2cAgrees_fuse1 rfl) trivial
    | sw => exact t2cAgrees_fuse3 rfl
    | lw => exact t2cAgrees_fuse4 rfl
    | shift =>
      refine iff_of_true (t2cAgrees_fuse5 rfl fun f hf => ?_) trivial
      obtain ⟨x, hx, rfl⟩ := List.mem_map.mp (List.mem_of_mem_take hf)
      exact hall x hx
    | addi => exact iff_of_true (t2cAgrees_fuse7 rfl) trivial
  | fuse2 => exact iff_of_true (t2cAgrees_fuse2 rfl) trivial
  | fuse6 => exact t2cAgrees_fuse6_iff henv rfl
  | fuse8 => exact iff_of_true (t2cAgrees_fuse8 rfl) trivial
  | fuse9 => exact t2cAgrees_fuse9_iff rfl
  | fuse10 => exact t2cAgrees_fuse10_iff rfl
  | fuse11 ir next hop hnext hrs1 hrd hne => exact t2cAgrees_fuse11_iff rfl hne
  | fuse12 => exact iff_of_true (t2cAgrees_fuse12 rfl hlk) trivial

/-- `lui a0, 1; lw rd, 0(a0)`. -/
def loadAbs (rd : Reg) : List Insn :=
  [{ opcode := .lui, rd := 10, imm := 0x1000 }, { opcode := .lw, rd, rs1 := 10, pc := 4 }]

def loadAbsNode (rd : Reg) : Insn := { opcode := .fuse9, rd := 10, imm := 0x1000, rs2 := rd }

theorem loadAbsNode_mem (rd : Reg) : loadAbsNode rd ∈ matchPattern (fun _ => true) (loadAbs rd) := by
  simp [loadAbs, loadAbsNode, matchPattern, matchAt]

theorem loadAbs_irBlock {i : Word} {rd : Reg} (hi : rvDecode true i = .ok { opcode := .lw, rd, rs1 := 10 }) :
    IrBlock true 0 (loadAbs rd) := by
  refine .cons (show rvDecode true 0x00001537 = .ok _ from rfl) (fun h => by cases h) ?_
  exact .cons hi (fun h => by cases h) (.nil _)

/-- The load overwrites the result of the `lui`. -/
theorem t2c_fused_agrees_loadAbs :
    T2cFusedDefined (loadAbsNode 10) warm.cpu ∧ ∀ r links noNext cycle,
      T2cAgrees (Env.bare false) ⟨false, 0, fun _ => false⟩ {} (loadAbsNode 10) r warm links noNext cycle := by
  have hdef : T2cFusedDefined (loadAbsNode 10) warm.cpu := ⟨by decide, .inl rfl⟩
  have hblk := loadAbs_irBlock (show rvDecode true 0x00052503 = .ok _ from rfl)
  refine ⟨hdef, fun r links noNext cycle => ?_⟩
  refine (t2c_fused_agrees_iff ⟨fun _ _ => rfl, fun _ _ _ _ => rfl, fun _ _ _ _ => rfl⟩ rfl hblk.unfused
    (loadAbsNode_mem 10) rfl ⟨?_, ?_⟩ r warm links noNext cycle).mpr hdef
  · intro pc h
    cases h
  · intro pc h
    cases h

/-- The `lui` writes `a0` in the interpreter only. -/
theorem t2c_fused_lui_lost :
    Unfused (loadAbs 11) ∧ loadAbsNode 11 ∈ matchPattern (fun _ => true) (loadAbs 11) ∧
      ∀ r links noNext cycle,
        (impl (Env.bare false) (loadAbsNode 11) links noNext cycle 0 warm.cpu).isTrap = false ∧
        ((impl (Env.bare false) (loadAbsNode 11) links noNext cycle 0 warm.cpu).visible (Env.bare false)).X 10 =
          0x1000 ∧
        (t2cVisible (Env.bare false) ⟨false, 0, fun _ => false⟩ {} (loadAbsNode 11) r warm).map (·.X 10) =
          some 7 ∧
        ¬ T2cAgrees (Env.bare false) ⟨false, 0, fun _ => false⟩ {} (loadAbsNode 11) r warm links noNext cycle := by
  have hblk := loadAbs_irBlock (show rvDecode true 0x00052583 = .ok _ from rfl)
  refine ⟨hblk.unfused, loadAbsNode_mem 11, fun r links noNext cycle => ⟨?_, ?_, ?_, fun h => ?_⟩⟩
  · cases noNext <;> rfl
  · cases noNext <;> rfl
  · have hrun := run_fuse9 (Env.bare false) 0 (fun _ => false) (loadAbsNode 11) r warm
    rw [guestOffset_abs, if_pos (by decide)] at hrun
    rw [t2cVisible_of_run 8 hrun ?_ ?_]
    · rfl
    · rfl
    · rfl
  · obtain ⟨-, hlost⟩ := (t2cAgrees_fuse9_iff rfl).mp h
    rcases hlost with heq | heq
    · exact absurd heq (by decide)
    · exact absurd heq (by decide)

end Rv32emu
