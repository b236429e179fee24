import Rv32emu.JitSound
import Rv32emu.T2cShape

/-!
# Nodes in tier 2

What the code of a node does, against the handler of the interpreter run from a machine of which only the registers and
the memory are the same. In a user-mode build.

* `Mirrors` : the registers and the memory of the interpreter are those of the process;
* `Insn.NodeFits`, `NodeRuns`, `node_runs` : nodes that fall through;
* `Exits`, `TailFits`, `TailRuns`, `tail_runs` : the last node of a block.
-/

namespace Rv32emu

open Llvm

/-- `rv->X` and the guest's memory are the interpreter's, and code is published under its addresses. -/
structure Mirrors (s : Cpu) (t : T2cState) : Prop where
  X : t.cpu.X = s.X
  mem : t.cpu.mem = s.mem
  published : t.Published

/-! ## Nodes that fall through -/

/-- The states in front of a node in which its code is right; `match_pattern` fuses a load and the increment of another
register. -/
def Insn.NodeFits (ir : Insn) (s : Cpu) : Prop :=
  ir.Falls ∧ T2cDefined ir s ∧ ir.AccessOk s ∧ T2cFusedDefined ir s ∧ (ir.opcode = .fuse11 → ir.rd ≠ ir.rs1)

/-- The interpreter goes on behind the node, and the code of the node falls through in its state. -/
def NodeRuns (env : Env) (cfg : T2cEnv) (lk : T2cLinks) (ir : Insn) (s : Cpu) : Prop :=
  ∃ s', (∀ cycle, ∃ cycle', impl env ir {} false cycle ir.pc s = .next cycle' (ir.pc + ir.nodeLen) s') ∧
    ∀ r t, Mirrors s t → ∃ t', t2cRun env cfg (t2c cfg lk ir) r t = some ({}, .fall 0, t') ∧ Mirrors s' t'

section Nodes

variable {env : Env} {cfg : T2cEnv} {lk : T2cLinks} {ir : Insn} {s s' : Cpu}

theorem nodeRuns_row (hfuse : ir.opcode.isFuse = false)
    (hexec : ∀ cycle, (rvop ir.opcode).exec env ir {} cycle ir.pc s = .next s')
    (hrun : ∀ r t, Mirrors s t → ∃ t', t2cRun env cfg (t2c cfg lk ir) r t = some ({}, .fall 0, t') ∧ Mirrors s' t') :
    NodeRuns env cfg lk ir s := by
  refine ⟨s', fun cycle => ⟨cycle + 1, ?_⟩, hrun⟩
  rw [impl_of_not_fuse hfuse, Insn.nodeLen_of_not_fuse hfuse]
  simp only [doRvop, hexec]
  rfl

theorem Mirrors.wrote {t : T2cState} (h : Mirrors s t) (rd : Reg) (v : Word) :
    Mirrors (s.setX rd v) (Rv32emu.wrote t rd v).2.2 where
  X := by
    change Function.update t.cpu.X rd v = Function.update s.X rd v
    rw [h.X]
  mem := h.mem
  published := h.published

theorem nodeRuns_set (hfuse : ir.opcode.isFuse = false) {dst : Insn → Reg} {val : Insn → (Reg → Word) → Word → Word}
    (hrow : rvop ir.opcode = .set dst val) {o : T2cState → Option Word}
    (hrun : ∀ r t, t2cRun env cfg (t2c cfg lk ir) r t = (o t).map (wrote t (dst ir)))
    (hval : ∀ t : T2cState, t.cpu.X = s.X → o t = some (val ir t.cpu.X ir.pc)) : NodeRuns env cfg lk ir s := by
  have hexec (cycle : BitVec 64) :
      (rvop ir.opcode).exec env ir {} cycle ir.pc s = .next (s.setX (dst ir) (val ir s.X ir.pc)) := by
    rw [hrow]
    rfl
  refine nodeRuns_row hfuse hexec fun r t ht => ⟨_, ?_, ht.wrote (dst ir) (val ir s.X ir.pc)⟩
  rw [hrun, hval t ht.X, ht.X]
  rfl

theorem nodeRuns_load (hfuse : ir.opcode.isFuse = false) {compress : Bool} {mask : Word}
    {addr : Insn → (Reg → Word) → Word} {read : Cpu → Word → Word}
    (hrow : rvop ir.opcode = .load compress mask addr read) (hal : misaligned env mask (addr ir s.X) = false)
    {off : T2cState → Option (BitVec 64)}
    {val : T2cState → BitVec 64 → Word}
    (hrun : ∀ r t, t2cRun env cfg (t2c cfg lk ir) r t = (off t).map fun a => wrote t ir.rd (val t a))
    (hoff : ∀ t : T2cState, t.cpu.X = s.X → off t = some (memOff (addr ir s.X)))
    (hval : ∀ t : T2cState, t.cpu.mem = s.mem → val t (memOff (addr ir s.X)) = read s (addr ir s.X)) :
    NodeRuns env cfg lk ir s := by
  have hexec (cycle : BitVec 64) :
      (rvop ir.opcode).exec env ir {} cycle ir.pc s = .next (s.setX ir.rd (read s (addr ir s.X))) := by
    rw [hrow]
    simp only [Code.exec, hal, Bool.false_eq_true, if_false]
  refine nodeRuns_row hfuse hexec fun r t ht => ⟨_, ?_, ht.wrote ir.rd (read s (addr ir s.X))⟩
  rw [hrun, hoff t ht.X, ← hval t ht.mem]
  rfl

theorem nodeRuns_store (hfuse : ir.opcode.isFuse = false) {compress : Bool} {mask : Word}
    {addr : Insn → (Reg → Word) → Word} {write : Cpu → Word → Word → Cpu}
    (hrow : rvop ir.opcode = .store compress mask addr write) (hal : misaligned env mask (addr ir s.X) = false)
    {off : T2cState → Option (BitVec 64)} {mem : T2cState → BitVec 64 → Mem}
    (hrun : ∀ r t, t2cRun env cfg (t2c cfg lk ir) r t = (off t).map fun a => stored t (mem t a))
    (hoff : ∀ t : T2cState, t.cpu.X = s.X → off t = some (memOff (addr ir s.X)))
    (hmem : ∀ t : T2cState, t.cpu.X = s.X → t.cpu.mem = s.mem →
      write s (addr ir s.X) (s.X ir.rs2) = { s with mem := mem t (memOff (addr ir s.X)) }) :
    NodeRuns env cfg lk ir s := by
  have hexec (cycle : BitVec 64) :
      (rvop ir.opcode).exec env ir {} cycle ir.pc s = .next (write s (addr ir s.X) (s.X ir.rs2)) := by
    rw [hrow]
    simp only [Code.exec, hal, Bool.false_eq_true, if_false]
  refine nodeRuns_row hfuse hexec fun r t ht => ⟨t.tick.withMem (mem t (memOff (addr ir s.X))), ?_, ?_⟩
  · rw [hrun, hoff t ht.X]
    rfl
  · rw [hmem t ht.X ht.mem]
    exact ⟨ht.X, rfl, ht.published⟩

/-! ## Runs -/

section Runs

variable {mb : BitVec 64} {g : OpcodeFuse → T2cState → Option T2cState} {ok : OpcodeFuse → Cpu → Prop}
  {eff : OpcodeFuse → Cpu → Cpu}

/-- Entries that are in order one after the other. -/
theorem foldlM_mirrors (l : List OpcodeFuse)
    (hstep : ∀ f ∈ l, ∀ s t, ok f s → Mirrors s t → ∃ t', g f t = some t' ∧ Mirrors (eff f s) t') {s : Cpu}
    {t : T2cState} (h : Stepwise ok eff l s) (ht : Mirrors s t) :
    ∃ t', l.foldlM (fun t f => g f t) t = some t' ∧ Mirrors (l.foldl (fun s f => eff f s) s) t' := by
  induction l generalizing s t with
  | nil => exact ⟨t, rfl, ht⟩
  | cons f rest ih =>
    obtain ⟨t1, hg, h1⟩ := hstep f (List.mem_cons_self ..) s t h.1 ht
    obtain ⟨t2, hrest, h2⟩ := ih (fun x hx => hstep x (List.mem_cons_of_mem f hx)) h.2 h1
    refine ⟨t2, ?_, h2⟩
    rw [List.foldlM_cons, hg]
    exact hrest

theorem nodeRuns_seq {p : Opcode → Bool} {op : Opcode} (hseq : SeqFusion p op) (hop : ir.opcode = op)
    (hmb : cfg.memBase = mb) {body : OpcodeFuse → T2cBuild Handed}
    (hcode : t2c cfg lk ir = t2cOp (forFuse body ir.fused))
    (hstraight : ∀ f ∈ ir.fused, Straight (t2cHost env mb) (body f) {} (g f))
    (hbody : ∀ f ∈ ir.fused, ∀ s, ok f s → seqBody env op f s = .ok (eff f s))
    (hstep : ∀ f ∈ ir.fused, ∀ s t, ok f s → Mirrors s t → ∃ t', g f t = some t' ∧ Mirrors (eff f s) t')
    (h : Stepwise ok eff ir.fused s) : NodeRuns env cfg lk ir s := by
  refine ⟨ir.fused.foldl (fun s f => eff f s) s, fun cycle => ⟨cycle + ir.imm2.signExtend 64, ?_⟩, fun r t ht => ?_⟩
  · have hlen : ir.nodeLen = ir.imm2 * 4 := by
      unfold Insn.nodeLen
      cases hseq <;> rw [hop]
    rw [hseq.impl_eq env ir hop, hlen, fuseSeq, show ir.fuse.take ir.imm2.toNat = ir.fused from rfl,
      foldlM_ok_of_stepwise ir.fused hbody h]
    rfl
  · obtain ⟨f, hf, hexec⟩ := (t2cOp_straight (forFuse_straight ir.fused hstraight)).exec
    have htick : Mirrors s t.tick := ⟨ht.X, ht.mem, ht.published⟩
    obtain ⟨t', hfold, h'⟩ := foldlM_mirrors ir.fused hstep h htick
    refine ⟨t', ?_, h'⟩
    unfold t2cRun
    rw [hcode, hf, Option.bind_some, hmb, hexec r t, hfold]
    rfl

theorem nodeRuns_seq_total {p : Opcode → Bool} {op : Opcode} (hseq : SeqFusion p op) (hop : ir.opcode = op)
    (hmb : cfg.memBase = mb) {body : OpcodeFuse → T2cBuild Handed} {g : OpcodeFuse → T2cState → T2cState}
    (eff : OpcodeFuse → Cpu → Cpu) (hcode : t2c cfg lk ir = t2cOp (forFuse body ir.fused))
    (hstraight : ∀ f ∈ ir.fused, Straight (t2cHost env mb) (body f) {} fun t => some (g f t))
    (hbody : ∀ f ∈ ir.fused, ∀ s, seqBody env op f s = .ok (eff f s))
    (hstep : ∀ f ∈ ir.fused, ∀ s t, Mirrors s t → Mirrors (eff f s) (g f t)) : NodeRuns env cfg lk ir s := by
  have hall : Stepwise (fun _ _ => True) eff ir.fused s := stepwise_of_forall _ (fun _ _ _ => trivial) _
  exact nodeRuns_seq hseq hop hmb hcode hstraight (fun f hf s _ => hbody f hf s)
    (fun f hf s t _ ht => ⟨_, rfl, hstep f hf s t ht⟩) hall

end Runs

theorem Mirrors.setX {t : T2cState} (h : Mirrors s t) (rd : Reg) {v w : Word} (hv : v = w) :
    Mirrors (s.setX rd v) (t.setX rd w) where
  X := by
    change Function.update t.cpu.X rd w = Function.update s.X rd v
    rw [h.X, hv]
  mem := h.mem
  published := h.published

theorem Mirrors.tick {t : T2cState} (h : Mirrors s t) : Mirrors s t.tick := ⟨h.X, h.mem, h.published⟩

theorem Mirrors.shiftEntry {t : T2cState} (h : Mirrors s t) (f : OpcodeFuse) :
    Mirrors (Rv32emu.shiftEntry f s) { t.tick with cpu := Rv32emu.shiftEntry f t.cpu } := by
  have hrs1 : s.X f.rs1 = t.tick.cpu.X f.rs1 := congrFun h.X.symm f.rs1
  unfold Rv32emu.shiftEntry fuseShiftExec
  split
  · exact h.tick.setX f.rd (by rw [hrs1]; rfl)
  · exact h.tick.setX f.rd (by rw [hrs1]; rfl)
  · exact h.tick.setX f.rd (by rw [hrs1]; rfl)
  · exact h.tick

theorem nodeRuns_pair (hlen : ir.nodeLen = 8)
    (himpl : ∀ cycle, impl env ir {} false cycle ir.pc s = .next (cycle + 2) (ir.pc + 8) s')
    (hrun : ∀ r t, Mirrors s t → ∃ t', t2cRun env cfg (t2c cfg lk ir) r t = some ({}, .fall 0, t') ∧ Mirrors s' t') :
    NodeRuns env cfg lk ir s :=
  ⟨s', fun cycle => ⟨cycle + 2, by rw [himpl, hlen]⟩, hrun⟩

theorem fuse11_next (hop : ir.opcode = .fuse11) (hne : ir.rd ≠ ir.rs1) (hok : WordOk (s.X ir.rs1) ir.imm)
    (cycle : BitVec 64) :
    impl env ir {} false cycle ir.pc s = .next (cycle + 2) (ir.pc + 8)
      ((s.setX ir.rd (s.memReadW (s.X ir.rs1 + ir.imm))).setX ir.rs1 (s.X ir.rs1 + ir.imm2)) := by
  have hbase : (s.setX ir.rd (s.memReadW (s.X ir.rs1 + ir.imm))).X ir.rs1 = s.X ir.rs1 :=
    Cpu.setX_of_ne s (Ne.symm hne) _
  simp only [impl, hop, doFuse11, checkAligned_of_wordOk hok, hbase]
  rfl

/-- **The code of a node that falls through does what the interpreter does.** -/
theorem node_runs {mb : BitVec 64} {chk : Word → Bool} (h : ir.NodeFits s) :
    NodeRuns env ⟨false, mb, chk⟩ lk ir s := by
  obtain ⟨hfalls, hdef, hacc, hfused, hne⟩ := h
  obtain ⟨imm, rd, rs1, rs2, opcode, shamt, rm, imm2, fuse, pc⟩ := ir
  cases opcode
  case nop =>
    refine nodeRuns_row rfl (fun _ => rfl) fun r t ht => ⟨t.tick, rfl, ?_, ht.mem, ht.published⟩
    exact ht.X.trans ((update_zero_eq_iff s.X).mpr hdef)
  case cnop => exact nodeRuns_row rfl (fun _ => rfl) fun r t ht => ⟨t.tick, rfl, ht.tick⟩
  case lui | cli | clui => exact nodeRuns_set rfl rfl (fun r t => run_storeImm ..) fun t _ => rfl
  case auipc =>
    exact nodeRuns_set rfl rfl (fun r t => run_storeImm ..) fun t _ => congrArg some (BitVec.add_comm ..)
  case addi | xori | ori | andi => exact nodeRuns_set rfl rfl (fun r t => run_aluImm ..) fun t _ => rfl
  case slli => exact nodeRuns_set rfl rfl (fun r t => run_aluImm ..) fun t _ => shl_defined ..
  case srli => exact nodeRuns_set rfl rfl (fun r t => run_aluImm ..) fun t _ => lshr_defined ..
  case srai => exact nodeRuns_set rfl rfl (fun r t => run_aluImm ..) fun t _ => ashr_defined ..
  case slti | sltiu => exact nodeRuns_set rfl rfl (fun r t => run_setImm ..) fun t _ => rfl
  case slt | sltu => exact nodeRuns_set rfl rfl (fun r t => run_set ..) fun t _ => rfl
  case add | sub | xor | or | and | csub | cxor | cor | cand | cadd =>
    exact nodeRuns_set rfl rfl (fun r t => run_alu ..) fun t _ => rfl
  case sll => exact nodeRuns_set rfl rfl (fun r t => run_shift ..) fun t _ => shl_defined ..
  case srl => exact nodeRuns_set rfl rfl (fun r t => run_shift ..) fun t _ => lshr_defined ..
  case sra => exact nodeRuns_set rfl rfl (fun r t => run_shift ..) fun t _ => ashr_defined ..
  case div =>
    exact nodeRuns_set rfl rfl (fun r t => run_alu ..) fun t hX => (sdiv_eval_iff ..).mpr (by rw [hX]; exact hdef)
  case rem =>
    exact nodeRuns_set rfl rfl (fun r t => run_alu ..) fun t hX => (srem_eval_iff ..).mpr (by rw [hX]; exact hdef)
  case divu =>
    exact nodeRuns_set rfl rfl (fun r t => run_alu ..) fun t hX => (udiv_eval_iff ..).mpr (by rw [hX]; exact hdef)
  case remu =>
    exact nodeRuns_set rfl rfl (fun r t => run_alu ..) fun t hX => (urem_eval_iff ..).mpr (by rw [hX]; exact hdef)
  case mul | mulh | mulhsu | mulhu => exact nodeRuns_set rfl rfl (fun r t => run_mul ..) fun t _ => rfl
  case caddi4spn =>
    exact nodeRuns_set rfl rfl (fun r t => run_aluImm ..) fun t _ => (addImm_eval_iff ..).mpr hdef
  case caddi | caddi16sp | candi => exact nodeRuns_set rfl rfl (fun r t => run_update ..) fun t _ => rfl
  case csrli => exact nodeRuns_set rfl rfl (fun r t => run_update ..) fun t _ => (lshr_eval_iff ..).mpr hdef
  case csrai => exact nodeRuns_set rfl rfl (fun r t => run_update ..) fun t _ => (ashr_eval_iff ..).mpr hdef
  case cslli => exact nodeRuns_set rfl rfl (fun r t => run_update ..) fun t _ => (shl_eval_iff ..).mpr hdef
  case cmv => exact nodeRuns_set rfl rfl (fun r t => run_copy ..) fun t _ => rfl
  case lb =>
    obtain ⟨hin, hal⟩ := hacc 1 rfl
    exact nodeRuns_load rfl rfl (not_misaligned hal (.inl ⟨rfl, rfl⟩)) (fun r t => run_load8 ..)
      (fun t hX => by rw [hX]; exact guestOffset_hostAddr mb hin hal)
      fun t hmem => by rw [hmem]; exact (signExtendB_setWidth _).symm
  case lbu =>
    obtain ⟨hin, hal⟩ := hacc 1 rfl
    exact nodeRuns_load rfl rfl (not_misaligned hal (.inl ⟨rfl, rfl⟩)) (fun r t => run_load8 ..)
      (fun t hX => by rw [hX]; exact guestOffset_hostAddr mb hin hal) fun t hmem => by rw [hmem]; rfl
  case lh =>
    obtain ⟨hin, hal⟩ := hacc 2 rfl
    exact nodeRuns_load rfl rfl (not_misaligned hal (.inr (.inl ⟨rfl, rfl⟩))) (fun r t => run_load16 ..)
      (fun t hX => by rw [hX]; exact guestOffset_hostAddr mb hin hal)
      fun t hmem => by rw [hmem]; exact (signExtendH_setWidth _).symm
  case lhu =>
    obtain ⟨hin, hal⟩ := hacc 2 rfl
    exact nodeRuns_load rfl rfl (not_misaligned hal (.inr (.inl ⟨rfl, rfl⟩))) (fun r t => run_load16 ..)
      (fun t hX => by rw [hX]; exact guestOffset_hostAddr mb hin hal) fun t hmem => by rw [hmem]; rfl
  case lw | clw | clwsp =>
    obtain ⟨hin, hal⟩ := hacc 4 rfl
    exact nodeRuns_load rfl rfl (not_misaligned hal (.inr (.inr ⟨rfl, rfl⟩))) (fun r t => run_load32 ..)
      (fun t hX => by rw [hX]; exact guestOffset_hostAddr mb hin hal) fun t hmem => by rw [hmem]; rfl
  case sb =>
    obtain ⟨hin, hal⟩ := hacc 1 rfl
    exact nodeRuns_store rfl rfl (not_misaligned hal (.inl ⟨rfl, rfl⟩)) (fun r t => run_store8 ..)
      (fun t hX => by rw [hX]; exact guestOffset_hostAddr mb hin hal) fun t hX hmem => by rw [hX, hmem]; rfl
  case sh =>
    obtain ⟨hin, hal⟩ := hacc 2 rfl
    exact nodeRuns_store rfl rfl (not_misaligned hal (.inr (.inl ⟨rfl, rfl⟩))) (fun r t => run_store16 ..)
      (fun t hX => by rw [hX]; exact guestOffset_hostAddr mb hin hal) fun t hX hmem => by rw [hX, hmem]; rfl
  case sw | csw =>
    obtain ⟨hin, hal⟩ := hacc 4 rfl
    exact nodeRuns_store rfl rfl (not_misaligned hal (.inr (.inr ⟨rfl, rfl⟩))) (fun r t => run_store32 ..)
      (fun t hX => by rw [hX]; exact guestOffset_hostAddr mb hin hal) fun t hX hmem => by rw [hX, hmem]; rfl
  case cswsp =>
    obtain ⟨hin, hal⟩ := hacc 4 rfl
    exact nodeRuns_store rfl rfl (not_misaligned hal (.inr (.inr ⟨rfl, rfl⟩))) (fun r t => run_cswsp ..)
      (fun t hX => by rw [hX]; exact guestOffset_hostAddr mb hin hal) fun t hX hmem => by rw [hX, hmem]; rfl
  case fuse1 =>
    exact nodeRuns_seq_total .lui rfl rfl (fun f s => s.setX f.rd f.imm) rfl
      (fun f _ => storeImm_straight f.rd f.imm) (fun _ _ _ => rfl) fun f _ s t ht => ht.setX f.rd rfl
  case fuse7 =>
    exact nodeRuns_seq_total .addi rfl rfl (fun f s => s.setX f.rd (s.X f.rs1 + f.imm)) rfl
      (fun f _ => aluImm_straight .add f.rs1 f.rd f.imm) (fun _ _ _ => rfl) fun f _ s t ht =>
      ht.setX f.rd (by rw [ht.X])
  case fuse5 =>
    exact nodeRuns_seq_total .shift rfl rfl Rv32emu.shiftEntry rfl (fun f hf => fuseShift_straight (hfalls f hf))
      (fun f _ s => fuseShiftExec_ok f s) fun f _ s t ht => ht.shiftEntry f
  case fuse3 =>
    refine nodeRuns_seq .sw rfl rfl rfl (fun f _ => store_straight chk f.rs1 f.rs2 f.imm) (fun f _ s hf => ?_)
      (fun f _ s t hf ht => ?_) ((stepwise_iff_forall storeEntry (fun f g s => Iff.rfl) _ s).mpr hfused)
    · simp only [seqBody, fuseSw, checkAligned_of_wordOk hf]
      rfl
    · refine ⟨t.withMem (t.cpu.mem.writeW (memOff (s.X f.rs1 + f.imm)) (t.cpu.X f.rs2)), ?_, ht.X, ?_, ht.published⟩
      · rw [ht.X]
        exact congrArg (Option.map _) (guestOffset_hostAddr mb hf.1 hf.2)
      · rw [ht.X, ht.mem]
        rfl
  case fuse4 =>
    refine nodeRuns_seq .lw rfl rfl rfl (fun f _ => load_straight chk f.rs1 f.rd f.imm) (fun f _ s hf => ?_)
      (fun f _ s t hf ht => ?_) hfused
    · simp only [seqBody, fuseLw, checkAligned_of_wordOk hf]
      rfl
    · refine ⟨t.setX f.rd (t.cpu.mem.readW (memOff (s.X f.rs1 + f.imm))), ?_, ht.setX f.rd (by rw [ht.mem]; rfl)⟩
      rw [ht.X]
      exact congrArg (Option.map _) (guestOffset_hostAddr mb hf.1 hf.2)
  case fuse2 =>
    refine nodeRuns_pair rfl (Tier1.fuse2_next rfl) fun r t ht => ⟨_, run_fuse2 .., ?_⟩
    have h1 : Mirrors (s.setX rd imm) (t.tick.setX rd imm) := ht.tick.setX rd rfl
    have hX : (t.cpu.setX rd imm).X = (s.setX rd imm).X := h1.X
    refine h1.setX rs2 ?_
    rw [hX, Cpu.setX_self]
  case fuse8 => exact nodeRuns_pair rfl (fun _ => rfl) fun r t ht => ⟨_, run_storeImm .., ht.wrote rd (imm + imm2)⟩
  case fuse9 =>
    obtain ⟨hal, hlui⟩ := hfused
    refine nodeRuns_pair rfl (Tier1.fuse9_next rfl (not_misaligned hal (.inr (.inr ⟨rfl, rfl⟩)))) fun r t ht =>
      ⟨t.tick.setX rs2 (t.cpu.mem.readW (memOff (imm + imm2))), ?_, ?_⟩
    · refine (run_fuse9 ..).trans ?_
      rw [guestOffset_abs, if_pos hal]
      rfl
    · have hvis := (visibleAt_lui_iff s rd rs2 imm (s.memReadW (imm + imm2)) pc).mpr hlui
      have hread : s.memReadW (imm + imm2) = t.cpu.mem.readW (memOff (imm + imm2)) := by
        rw [ht.mem]
        rfl
      have hset := ht.tick.setX rs2 hread
      exact ⟨hset.X.trans (congrArg Visible.X hvis), ht.mem, ht.published⟩
  case fuse10 =>
    obtain ⟨hal, himm⟩ := hfused
    have hself : s.setX rd imm = s := by
      unfold Cpu.setX
      rw [show imm = s.X rd from himm.symm, Function.update_eq_self]
    refine nodeRuns_pair rfl (Tier1.fuse10_next rfl (not_misaligned hal (.inr (.inr ⟨rfl, rfl⟩)))) fun r t ht =>
      ⟨t.tick.withMem (t.cpu.mem.writeW (memOff (imm + imm2)) (t.cpu.X rs1)), ?_, ?_⟩
    · refine (run_fuse10 ..).trans ?_
      rw [guestOffset_abs, if_pos hal]
      rfl
    · rw [hself, ht.X, ht.mem]
      exact ⟨ht.X, rfl, ht.published⟩
  case fuse11 =>
    refine nodeRuns_pair rfl (fuse11_next rfl (hne rfl) hfused) fun r t ht =>
      ⟨(t.tick.setX rd (t.cpu.mem.readW (memOff (s.X rs1 + imm)))).setX rs1 (t.cpu.X rs1 + imm2), ?_, ?_⟩
    · refine (run_fuse11 ..).trans ?_
      rw [ht.X]
      exact congrArg (Option.map _) (guestOffset_hostAddr mb hfused.1 hfused.2)
    · exact (ht.tick.setX rd (by rw [ht.mem]; rfl)).setX rs1 (by rw [ht.X])
  all_goals exact absurd hfalls id

end Nodes

/-! ## The last node of a block -/

/-- Where the code of the last node goes on at `pc`: it has returned with `rv->PC`, it has entered published code, or it
stands at the builder of a link to a block that is valid. -/
def Exits (cfg : T2cEnv) (lk : T2cLinks) (handed : Handed) (pc : Word) (t : T2cState) : Exit Word → Prop
  | .ret => t.cpu.PC = pc
  | .left q => q = pc
  | .fall b =>
    b = handed.taken.getD 0 ∧ lk.taken = some pc ∧ cfg.checkValidBlk pc = true ∧
        (lk.untaken = none ∨ b ≠ handed.untaken.getD 0) ∨
      b = handed.untaken.getD 0 ∧ lk.untaken = some pc ∧ cfg.checkValidBlk pc = true

/-- The code of the last node takes the process where the interpreter goes. -/
def TailRuns (env : Env) (cfg : T2cEnv) (lk : T2cLinks) (ir : Insn) (s : Cpu) : Prop :=
  ∀ cycle r t, Mirrors s t → ∃ handed exit t', t2cRun env cfg (t2c cfg lk ir) r t = some (handed, exit, t') ∧
    Mirrors (Tier1.settle env (impl env ir {} false cycle ir.pc s)) t' ∧
    Exits cfg lk handed (Tier1.settle env (impl env ir {} false cycle ir.pc s)).PC t' exit

/-- The links of the last node, as `rv_step` has set them, and the state in front of it. Code that follows a link
without asking whether the block is valid needs one that is. -/
def TailFits (cfg : T2cEnv) (lk : T2cLinks) (ir : Insn) (s : Cpu) : Prop :=
  match ir.opcode with
  | .jal => lk.Right ir ∧ lk.untaken = none
  | .cj | .cjal => lk.Right ir ∧ lk.untaken = none ∧ lk.taken.all cfg.checkValidBlk = true
  | .beq | .bne | .blt | .bge | .bltu | .bgeu | .fuse12 => lk.Right ir
  | .cbeqz | .cbnez =>
    lk.Right ir ∧ lk.taken.all cfg.checkValidBlk = true ∧ lk.untaken.all cfg.checkValidBlk = true
  | .jalr | .cjr | .cjalr => lk.taken = none ∧ lk.untaken = none
  -- a block that ends with its page is linked as if by a jump
  | _ => ir.NodeFits s ∧ lk.untaken = none ∧ lk.taken = some (ir.pc + ir.nodeLen) ∧
      cfg.checkValidBlk (ir.pc + ir.nodeLen) = true

section Tails

variable {env : Env} {cfg : T2cEnv} {lk : T2cLinks} {ir : Insn} {s : Cpu}

structure ShowsAt (v : Visible) (t : T2cState) : Prop where
  X : t.cpu.X = v.X
  mem : t.cpu.mem = v.mem
  published : t.Published

theorem tailRuns_of_visible {v : Visible} (hv : ∀ cycle, (impl env ir {} false cycle ir.pc s).visible env = v)
    (hrun : ∀ r t, Mirrors s t → ∃ handed exit t', t2cRun env cfg (t2c cfg lk ir) r t = some (handed, exit, t') ∧
      ShowsAt v t' ∧ Exits cfg lk handed v.pc t' exit) : TailRuns env cfg lk ir s := by
  intro cycle r t ht
  obtain ⟨handed, exit, t', hx, hshow, hexit⟩ := hrun r t ht
  have hvis := (Tier1.settle_visibleAt env (impl env ir {} false cycle ir.pc s)).trans (hv cycle)
  refine ⟨handed, exit, t', hx, ⟨?_, ?_, hshow.published⟩, ?_⟩
  · exact hshow.X.trans (congrArg Visible.X hvis).symm
  · exact hshow.mem.trans (congrArg Visible.mem hvis).symm
  · rw [show (Tier1.settle env (impl env ir {} false cycle ir.pc s)).PC = v.pc from congrArg Visible.pc hvis]
    exact hexit

/-- A node that falls through to the linked block. -/
theorem tailRuns_of_node (h : NodeRuns env cfg lk ir s) (huntaken : lk.untaken = none)
    (htaken : lk.taken = some (ir.pc + ir.nodeLen)) (hvalid : cfg.checkValidBlk (ir.pc + ir.nodeLen) = true) :
    TailRuns env cfg lk ir s := by
  obtain ⟨s', himpl, hrun⟩ := h
  refine tailRuns_of_visible (v := s'.visibleAt (ir.pc + ir.nodeLen)) (fun cycle => ?_) fun r t ht => ?_
  · obtain ⟨cycle', hnext⟩ := himpl cycle
    rw [hnext]
    rfl
  · obtain ⟨t', hx, ht'⟩ := hrun r t ht
    exact ⟨{}, .fall 0, t', hx, ⟨ht'.X, ht'.mem, ht'.published⟩, .inl ⟨rfl, htaken, hvalid, .inl huntaken⟩⟩

theorem ShowsAt.leave {v : Visible} {t : T2cState} (h : ShowsAt v t) (pc : Word) : ShowsAt v (t.setPC pc).flush :=
  ⟨h.X, h.mem, h.published⟩

theorem tailRuns_jump {v : Visible} (hv : ∀ cycle, (impl env ir {} false cycle ir.pc s).visible env = v)
    {chain : Bool} {t1 : T2cState → T2cState}
    (hrun : ∀ r t, t2cRun env cfg (t2c cfg lk ir) r t =
      some ({ taken := if chain then some 0 else none }, chained (t1 t) chain 0 v.pc))
    (h1 : ∀ t, Mirrors s t → ShowsAt v (t1 t))
    (hlink : chain = true → lk.taken = some v.pc ∧ cfg.checkValidBlk v.pc = true ∧ lk.untaken = none) :
    TailRuns env cfg lk ir s := by
  refine tailRuns_of_visible hv fun r t ht => ?_
  cases chain with
  | true =>
    obtain ⟨htaken, hvalid, huntaken⟩ := hlink rfl
    exact ⟨_, _, _, hrun r t, h1 t ht, .inl ⟨rfl, htaken, hvalid, .inl huntaken⟩⟩
  | false => exact ⟨_, _, _, hrun r t, (h1 t ht).leave v.pc, rfl⟩

theorem tailRuns_branch {X : Reg → Word} {mem : Mem} {c : Bool} {target next : Word}
    (hv : ∀ cycle, (impl env ir {} false cycle ir.pc s).visible env = ⟨X, mem, if c then target else next⟩)
    {tk utk : Bool} {t1 : T2cState → T2cState}
    (hrun : ∀ r t, Mirrors s t → t2cRun env cfg (t2c cfg lk ir) r t = some (branched (t1 t) tk utk c target next))
    (h1 : ∀ t, Mirrors s t → ShowsAt ⟨X, mem, if c then target else next⟩ (t1 t))
    (htaken : tk = true → lk.taken = some target ∧ cfg.checkValidBlk target = true)
    (huntaken : utk = true → lk.untaken = some next ∧ cfg.checkValidBlk next = true) : TailRuns env cfg lk ir s := by
  refine tailRuns_of_visible hv fun r t ht => ?_
  have hx := hrun r t ht
  have hshow := h1 t ht
  unfold branched at hx
  rw [truth_bit] at hx
  cases c with
  | true =>
    cases tk with
    | true =>
      obtain ⟨hlink, hvalid⟩ := htaken rfl
      refine ⟨_, _, _, hx, hshow, .inl ⟨rfl, hlink, hvalid, .inr ?_⟩⟩
      cases utk <;> decide
    | false => exact ⟨_, _, _, hx, hshow.leave target, rfl⟩
  | false =>
    cases utk with
    | true =>
      obtain ⟨hlink, hvalid⟩ := huntaken rfl
      exact ⟨_, _, _, hx, hshow, .inr ⟨rfl, hlink, hvalid⟩⟩
    | false => exact ⟨_, _, _, hx, hshow.leave next, rfl⟩

/-! ## Indirect jumps -/

theorem T2cState.setSlot_setSlot (t : T2cState) (table : CodeTable) (i : BitVec 64) (c c' : CodeSlot) :
    (t.setSlot table i c).setSlot table i c' = t.setSlot table i c' := by
  simp only [T2cState.setSlot, Function.update_self, Function.update_idem]

theorem T2cState.Published.setSlot {t : T2cState} (h : t.Published) (table : CodeTable) (i : BitVec 64) {c : CodeSlot}
    (hc : ∀ pc, c.entry = some pc → c.key = pc.setWidth 64) : (t.setSlot table i c).Published := by
  intro table' i' pc hentry
  by_cases htable : table' = table
  · subst htable
    by_cases hi : i' = i
    · subst hi
      simp only [T2cState.setSlot, Function.update_self] at hentry ⊢
      exact hc pc hentry
    · simp only [T2cState.setSlot, Function.update_self, Function.update_of_ne hi] at hentry ⊢
      exact h table' i' pc hentry
  · simp only [T2cState.setSlot, Function.update_of_ne htable] at hentry ⊢
    exact h table' i' pc hentry

/-- `t2c_jit_cache_helper` goes on at `addr`, and what it copies to the inline cache is filed there. -/
theorem indirect_exits (env : Env) (cfg : T2cEnv) (lk : T2cLinks) (mb : BitVec 64) (addr : Word) {t : T2cState}
    (hpub : t.Published) :
    ∃ exit t', indirect env mb addr t = some (exit, t') ∧ t'.cpu.X = t.cpu.X ∧ t'.cpu.mem = t.cpu.mem ∧ t'.Published ∧
      Exits cfg lk {} addr t' exit := by
  have hfound {table : CodeTable} {i : BitVec 64} {pc : Word} (he : (t.tables table i).entry = some pc)
      (hk : ((t.tables table i).key == addr.setWidth 64) = true) : pc = addr := by
    rw [beq_iff_eq, hpub table i pc he] at hk
    exact setWidth_64_inj hk
  unfold indirect
  simp only [truth_bit_and, truth_bit, Bool.and_eq_true]
  split_ifs with hic heven hkey hjc
  · obtain ⟨pc, he⟩ := isCode_codePtr hic.2
    rw [he]
    exact ⟨_, _, rfl, rfl, rfl, hpub, hfound he hic.1⟩
  · obtain ⟨pc, he⟩ := isCode_codePtr hjc.2
    obtain rfl := hfound he hkey
    rw [he]
    refine ⟨_, _, rfl, rfl, rfl, ?_, rfl⟩
    refine (T2cState.setSlot_setSlot t .inlineCache _ _ _ ▸ hpub.setSlot .inlineCache _ ?_ :
      (T2cState.setSlot _ .inlineCache _ _).Published)
    intro q hq
    simp only [T2cState.setSlot, Function.update_self] at hq ⊢
    rw [← Option.some_inj.mp hq]
  · exact ⟨_, _, rfl, rfl, rfl, hpub, rfl⟩
  · exact ⟨_, _, rfl, rfl, rfl, hpub, rfl⟩
  · exact ⟨_, _, rfl, rfl, rfl, hpub, rfl⟩

/-- A node whose code ends in `t2c_jit_cache_helper`. -/
theorem tailRuns_indirect {mb : BitVec 64} {chk : Word → Bool} {v : Visible}
    (hv : ∀ cycle, (impl env ir {} false cycle ir.pc s).visible env = v) {t1 : T2cState → T2cState}
    (hexec : ∀ r t, Mirrors s t → ∃ f, t2c ⟨false, mb, chk⟩ lk ir {} = some ({}, f) ∧
      f.exec (t2cHost env mb) r t = indirect env mb v.pc (t1 t))
    (h1 : ∀ t, Mirrors s t → ShowsAt v (t1 t)) : TailRuns env ⟨false, mb, chk⟩ lk ir s := by
  refine tailRuns_of_visible hv fun r t ht => ?_
  obtain ⟨f, hf, hrun⟩ := hexec r t ht
  have hshow := h1 t ht
  obtain ⟨exit, t', hind, hX, hmem, hpub, hexit⟩ :=
    indirect_exits env ⟨false, mb, chk⟩ lk mb v.pc hshow.published
  refine ⟨{}, exit, t', ?_, ⟨hX.trans hshow.X, hmem.trans hshow.mem, hpub⟩, hexit⟩
  unfold t2cRun
  rw [hf, Option.bind_some, hrun, hind]
  rfl

/-! ## The handlers that end a block -/

theorem T2cEnv.valid_link {link : Option Word} {pc : Word} (h : cfg.valid link = true)
    (hpc : ∀ q, link = some q → q = pc) : link = some pc ∧ cfg.checkValidBlk pc = true := by
  obtain ⟨q, rfl⟩ := Option.isSome_iff_exists.mp (T2cEnv.valid_isSome h)
  obtain rfl := hpc q rfl
  exact ⟨rfl, h⟩

theorem T2cEnv.all_link {link : Option Word} {pc : Word} (h : link.isSome = true)
    (hall : link.all cfg.checkValidBlk = true) (hpc : ∀ q, link = some q → q = pc) :
    link = some pc ∧ cfg.checkValidBlk pc = true := by
  obtain ⟨q, rfl⟩ := Option.isSome_iff_exists.mp h
  obtain rfl := hpc q rfl
  exact ⟨rfl, hall⟩

theorem Mirrors.showsAt {t : T2cState} (h : Mirrors s t) (pc : Word) : ShowsAt (s.visibleAt pc) t :=
  ⟨h.X, h.mem, h.published⟩

/-- The link register of `jal` and `jalr`. -/
theorem Mirrors.link {t : T2cState} (h : Mirrors s t) (rd : Reg) (ret pc : Word) :
    ShowsAt ((s.setXNz rd ret).visibleAt pc) (if rd = 0 then t.tick else t.tick.setX rd ret) := by
  unfold Cpu.setXNz
  by_cases hrd : rd = 0
  · rw [if_pos hrd, if_neg (not_not.mpr hrd)]
    exact h.tick.showsAt pc
  · rw [if_neg hrd, if_pos hrd]
    exact (h.tick.setX rd rfl).showsAt pc

section Targets

variable (hlk : lk.Right ir) (hfuse : ir.opcode.isFuse = false)

include hfuse in
theorem Insn.ne_fuse12 : ir.opcode ≠ .fuse12 := by
  intro h
  rw [h] at hfuse
  cases hfuse

include hlk hfuse

theorem T2cLinks.Right.taken_eq (q : Word) (h : lk.taken = some q) : q = ir.pc + ir.imm := by
  rw [hlk.taken q h, Insn.linkTaken, if_neg (Insn.ne_fuse12 hfuse)]

theorem T2cLinks.Right.untaken_eq (q : Word) (h : lk.untaken = some q) : q = ir.pc + ir.opcode.len := by
  rw [hlk.untaken q h, Insn.linkUntaken, if_neg (Insn.ne_fuse12 hfuse)]

end Targets

theorem tailRuns_branchFunc (hext : env.extC = true) (hfuse : ir.opcode.isFuse = false)
    (hlk : lk.Right ir) {p : Pred} (hcode : t2c cfg lk ir = t2cOp (t2cBranchFunc cfg lk p ir))
    {untaken : Word → Word → Bool} (hrow : rvop ir.opcode = .branch untaken) (hlen : ir.opcode.len = 4)
    (hp : ∀ x y : Word, p.eval x y = !untaken x y) : TailRuns env cfg lk ir s := by
  have hv (cycle : BitVec 64) : (impl env ir {} false cycle ir.pc s).visible env =
      ⟨s.X, s.mem, if p.eval (s.X ir.rs1) (s.X ir.rs2) then ir.pc + ir.imm else ir.pc + 4⟩ := by
    rw [impl_of_not_fuse hfuse, doRvop_visible, hrow, hlen, branch_visible (s := ⟨s, 0, fun _ _ => {}⟩) hext untaken,
      hp]
    cases untaken (s.X ir.rs1) (s.X ir.rs2) <;> rfl
  refine tailRuns_branch hv (fun r t ht => ?_) (fun t ht => ⟨ht.tick.X, ht.tick.mem, ht.tick.published⟩)
    (fun hvalid => T2cEnv.valid_link hvalid (hlk.taken_eq hfuse)) fun hvalid => T2cEnv.valid_link hvalid ?_
  · rw [hcode, ← ht.X]
    exact run_branchFunc env cfg r t lk p ir
  · rw [← hlen]
    exact hlk.untaken_eq hfuse

theorem tailRuns_cbranch (hfuse : ir.opcode.isFuse = false) (hlk : lk.Right ir)
    (htaken : lk.taken.all cfg.checkValidBlk = true) (huntaken : lk.untaken.all cfg.checkValidBlk = true) {p : Pred}
    (hcode : t2c cfg lk ir = t2cOp (t2cCBranch lk p ir)) {untaken : Word → Bool}
    (hrow : rvop ir.opcode = .cbranch untaken) (hlen : ir.opcode.len = 2)
    (hp : ∀ x : Word, p.eval x 0 = !untaken x) : TailRuns env cfg lk ir s := by
  have hv (cycle : BitVec 64) : (impl env ir {} false cycle ir.pc s).visible env =
      ⟨s.X, s.mem, if p.eval (s.X ir.rs1) 0 then ir.pc + ir.imm else ir.pc + 2⟩ := by
    rw [impl_of_not_fuse hfuse, doRvop_visible, hrow, hlen, cbranch_visible (s := ⟨s, 0, fun _ _ => {}⟩) untaken, hp]
    cases untaken (s.X ir.rs1) <;> rfl
  refine tailRuns_branch hv (fun r t ht => ?_) (fun t ht => ⟨ht.tick.X, ht.tick.mem, ht.tick.published⟩)
    (fun hsome => T2cEnv.all_link hsome htaken (hlk.taken_eq hfuse)) fun hsome => T2cEnv.all_link hsome huntaken ?_
  · rw [hcode, ← ht.X]
    exact run_cbranch env cfg r t lk p ir
  · rw [← hlen]
    exact hlk.untaken_eq hfuse

theorem tailRuns_fuse12 (hop : ir.opcode = .fuse12) (hlk : lk.Right ir)
    (hcode : t2c cfg lk ir = t2cOp (t2cFuse12 cfg lk ir)) : TailRuns env cfg lk ir s := by
  have hv (cycle : BitVec 64) : (impl env ir {} false cycle ir.pc s).visible env =
      ⟨(s.setX ir.rd (s.X ir.rs1 + ir.imm)).X, s.mem,
        if Pred.eval (s.X ir.rs1 + ir.imm) 0 .ne then ir.pc + 4 + ir.imm2 else ir.pc + 8⟩ := by
    have himpl : impl env ir {} false cycle ir.pc s = doFuse12 ir {} cycle ir.pc s := by
      unfold impl
      rw [hop]
    rw [himpl, doFuse12_visible]
    rfl
  have htaken : ir.linkTaken = ir.pc + 4 + ir.imm2 := if_pos hop
  have huntaken : ir.linkUntaken = ir.pc + 8 := if_pos hop
  have hrun (r : Regs HostPtr) (t : T2cState) (ht : Mirrors s t) : t2cRun env cfg (t2c cfg lk ir) r t =
      some (branched (t.tick.setX ir.rd (t.cpu.X ir.rs1 + ir.imm)) (cfg.valid lk.taken) (cfg.valid lk.untaken)
        (Pred.eval (s.X ir.rs1 + ir.imm) 0 .ne) (ir.pc + 4 + ir.imm2) (ir.pc + 8)) := by
    rw [hcode, ← ht.X]
    exact run_fuse12 env cfg lk ir r t
  refine tailRuns_branch hv hrun (fun t ht => ?_)
    (fun hvalid => T2cEnv.valid_link hvalid fun q hq => (hlk.taken q hq).trans htaken)
    fun hvalid => T2cEnv.valid_link hvalid fun q hq => (hlk.untaken q hq).trans huntaken
  have hset : Mirrors (s.setX ir.rd (s.X ir.rs1 + ir.imm)) (t.tick.setX ir.rd (t.cpu.X ir.rs1 + ir.imm)) :=
    ht.tick.setX ir.rd (by rw [ht.X])
  exact ⟨hset.X, hset.mem, hset.published⟩

/-- **The code of the last node of a block takes the process where the interpreter goes.** -/
theorem tail_runs (hext : env.extC = true) {mb : BitVec 64} {chk : Word → Bool}
    (h : TailFits ⟨false, mb, chk⟩ lk ir s) : TailRuns env ⟨false, mb, chk⟩ lk ir s := by
  obtain ⟨imm, rd, rs1, rs2, opcode, shamt, rm, imm2, fuse, pc⟩ := ir
  cases opcode
  case jal =>
    obtain ⟨hlk, huntaken⟩ := h
    refine tailRuns_jump (fun cycle => Tier1.impl_visible_jal hext rfl) (fun r t => run_jal ..)
      (fun t ht => ht.link rd (pc + 4) (pc + imm)) fun hvalid => ?_
    obtain ⟨htaken, hchk⟩ := T2cEnv.valid_link hvalid (hlk.taken_eq rfl)
    exact ⟨htaken, hchk, huntaken⟩
  case cj =>
    obtain ⟨hlk, huntaken, hall⟩ := h
    refine tailRuns_jump (v := s.visibleAt (pc + imm)) (fun cycle => ?_) (fun r t => run_jump ..)
      (fun t ht => ht.tick.showsAt (pc + imm)) fun hsome => ?_
    · rw [impl_of_not_fuse rfl, doRvop_visible]
      rfl
    · obtain ⟨htaken, hchk⟩ := T2cEnv.all_link hsome hall (hlk.taken_eq rfl)
      exact ⟨htaken, hchk, huntaken⟩
  case cjal =>
    obtain ⟨hlk, huntaken, hall⟩ := h
    refine tailRuns_jump (v := (s.setX regRa (pc + 2)).visibleAt (pc + imm)) (fun cycle => ?_) (fun r t => run_cjal ..)
      (fun t ht => (ht.tick.setX regRa rfl).showsAt (pc + imm)) fun hsome => ?_
    · rw [impl_of_not_fuse rfl, doRvop_visible]
      rfl
    · obtain ⟨htaken, hchk⟩ := T2cEnv.all_link hsome hall (hlk.taken_eq rfl)
      exact ⟨htaken, hchk, huntaken⟩
  case beq =>
    exact tailRuns_branchFunc hext rfl h rfl rfl rfl fun x y => by simp [Pred.eval, bne]
  case bne =>
    exact tailRuns_branchFunc hext rfl h rfl rfl rfl fun x y => by simp [Pred.eval, bne]
  case blt => exact tailRuns_branchFunc hext rfl h rfl rfl rfl slt_eq_not_sle
  case bge => exact tailRuns_branchFunc hext rfl h rfl rfl rfl sle_eq_not_slt
  case bltu => exact tailRuns_branchFunc hext rfl h rfl rfl rfl ult_eq_not_ule
  case bgeu => exact tailRuns_branchFunc hext rfl h rfl rfl rfl ule_eq_not_ult
  case cbeqz =>
    exact tailRuns_cbranch rfl h.1 h.2.1 h.2.2 rfl rfl rfl fun x => by simp [Pred.eval, bne]
  case cbnez =>
    exact tailRuns_cbranch rfl h.1 h.2.1 h.2.2 rfl rfl rfl fun x => by simp [Pred.eval, bne]
  case fuse12 => exact tailRuns_fuse12 rfl h rfl
  case jalr =>
    refine tailRuns_indirect (fun cycle => Tier1.impl_visible_jalr hext rfl) (fun r t ht => ?_)
      fun t ht => ht.link rd (pc + 4) _
    rw [← ht.X]
    exact exec_jalr mb chk
  case cjr =>
    refine tailRuns_indirect (v := s.visibleAt (s.X rs1)) (fun cycle => ?_) (fun r t ht => ?_)
      fun t ht => ht.tick.showsAt _
    · rw [impl_of_not_fuse rfl, doRvop_visible]
      rfl
    · rw [← ht.X]
      exact exec_cjr ..
  case cjalr =>
    refine tailRuns_indirect (v := (s.setX regRa (pc + 2)).visibleAt (s.X rs1)) (fun cycle => ?_) (fun r t ht => ?_)
      fun t ht => (ht.tick.setX regRa rfl).showsAt _
    · rw [impl_of_not_fuse rfl, doRvop_visible]
      rfl
    · rw [← ht.X]
      exact exec_cjalr ..
  all_goals exact tailRuns_of_node (node_runs h.1) h.2.1 h.2.2.1 h.2.2.2

end Tails

end Rv32emu
