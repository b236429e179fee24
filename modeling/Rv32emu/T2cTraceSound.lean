import Rv32emu.T2cLayout
import Rv32emu.T2cNodes

/-!
# Tier-2 functions against the interpreter

In a user-mode build.

* `T2cBlockFits` : every node of a block fits in the state its predecessors leave;
* `Left`, `At` : a run of LLVM code that has left the function in the interpreter's state, or stands at the LLVM block
  of the interpreter's `PC`;
* `nodes_run`, `block_run` : the code of a block, by induction on its nodes;
* `function_sound` : the function that `t2c_compile` builds, called from its start, through any number of blocks.
-/

namespace Rv32emu

open Llvm

/-- From `pc` on, every node fits in the state that its predecessors leave and is where it is run. -/
def T2cBlockFits (env : Env) (cfg : T2cEnv) (lk : T2cLinks) : List Insn → Word → Cpu → Prop
  | [], _, _ => False
  | [ir], pc, s => ir.pc = pc ∧ TailFits cfg lk ir s
  | ir :: next :: irs, pc, s => ir.pc = pc ∧ ir.NodeFits s ∧
      ∀ cycle cycle' pc' s', impl env ir {} false cycle pc s = .next cycle' pc' s' →
        T2cBlockFits env cfg lk (next :: irs) pc' s'

/-- The run has left the function in the state `s`, with `rv->PC` written or into the code of the block there. -/
def Left (s : Cpu) (run : Nat → Option (Exit Word × T2cState)) : Prop :=
  ∃ m exit t, Mirrors s t ∧ (exit = .ret ∧ t.cpu.PC = s.PC ∨ exit = .left s.PC) ∧
    ∀ fuel, run (m + fuel) = some (exit, t)

/-- The run has come, in the state `s`, to the LLVM block of the block at its `PC`. -/
def At (h : Llvm.Host HostPtr Gep T2cState Word) (f : Trace) (s : Cpu)
    (run : Nat → Option (Exit Word × T2cState)) : Prop :=
  ∃ m dest r t, Mirrors s t ∧ (s.PC, dest) ∈ f.map ∧ ∀ fuel, run (m + fuel) = runBlocks h f.frag.block fuel dest r t

section Runs

variable {h : Llvm.Host HostPtr Gep T2cState Word} {f : Trace} {s : Cpu}
  {run run' : Nat → Option (Exit Word × T2cState)} {k : Nat}

theorem Left.behind (hleft : Left s run') (hrun : ∀ fuel, run (k + fuel) = run' fuel) : Left s run := by
  obtain ⟨m, exit, t, ht, hexit, hx⟩ := hleft
  refine ⟨k + m, exit, t, ht, hexit, fun fuel => ?_⟩
  rw [Nat.add_assoc, hrun, hx]

theorem At.behind (hat : At h f s run') (hrun : ∀ fuel, run (k + fuel) = run' fuel) : At h f s run := by
  obtain ⟨m, dest, r, t, ht, hdest, hx⟩ := hat
  refine ⟨k + m, dest, r, t, ht, hdest, fun fuel => ?_⟩
  rw [Nat.add_assoc, hrun, hx]

end Runs

/-! ## The code of a block -/

/-- The links whose blocks are valid have their branches behind the last node. -/
structure LinksRun (cfg : T2cEnv) (lk : T2cLinks) (f : Trace) (e : Builder)
    (rest : Builder → List (Item HostPtr Gep)) (out : Handed) : Prop where
  untaken : ∀ pc, lk.untaken = some pc → cfg.checkValidBlk pc = true →
    ∃ dest, (pc, dest) ∈ f.map ∧ (rest (out.untaken.getD e)).head? = some (.br dest)
  taken : ∀ pc, lk.taken = some pc → cfg.checkValidBlk pc = true →
    (lk.untaken = none ∨ out.taken.getD e ≠ out.untaken.getD e) →
    ∃ dest, (pc, dest) ∈ f.map ∧ (rest (out.taken.getD e)).head? = some (.br dest)

theorem settle_andThen_nil (env : Env) (c : Ctl) :
    Tier1.settle env (c.andThen (runIr env [])) = Tier1.settle env c := by
  cases c <;> rfl

/-- A node that hands control over to a terminal one has no links to follow. -/
theorem TailFits.terminal {cfg : T2cEnv} {lk : T2cLinks} {ir : Insn} {s : Cpu} (h : TailFits cfg lk ir s)
    (hterm : t2cInsnIsTerminal false ir.opcode = true) : lk.taken = none ∧ lk.untaken = none := by
  obtain ⟨imm, rd, rs1, rs2, opcode, shamt, rm, imm2, fuse, pc⟩ := ir
  cases opcode
  case jalr | cjr | cjalr => exact h
  case ecall | ebreak | cebreak | mret => exact absurd h.1.1 id
  all_goals cases hterm

/-- A builder that a handler hands over, where its code has been placed. -/
theorem getD_place (o : Option Builder) (e count : Nat) :
    ((o.map (place e count)).or none).getD e = place e count (o.getD 0) := by
  cases o <;> rfl

section Block

variable {env : Env} {mb : BitVec 64} {chk : Word → Bool} {lk : T2cLinks} {f : Trace} {e : Builder}
  {own : Builder → Prop} {rest : Builder → List (Item HostPtr Gep)} {out : Handed}

/-- The code of the last node, and the branch behind it. -/
theorem tail_run (hext : env.extC = true) {ir : Insn} {s : Cpu} (hfit : TailFits ⟨false, mb, chk⟩ lk ir s)
    (hlinks : t2cInsnIsTerminal false ir.opcode = true ∨ LinksRun ⟨false, mb, chk⟩ lk f e rest out)
    {handed : Handed} {c : Fragment HostPtr Gep} {k count : Nat}
    (hcode : t2c ⟨false, mb, chk⟩ lk ir {} = some (handed, c)) (hform : Formed handed c)
    (hout : out = handed.place (place e count) {}) (he : e < count)
    (hlies : ∀ j, 0 < j → j < c.count → f.frag.block (place e count j) =
      (c.block j).map (Item.place k (place e count)) ++ rest (place e count j)) (cycle : BitVec 64)
    (r : Regs HostPtr) {t : T2cState} (ht : Mirrors s t) :
    Left (Tier1.settle env (impl env ir {} false cycle ir.pc s)) (fun fuel =>
        runItems (t2cHost env mb) (runBlocks (t2cHost env mb) f.frag.block fuel) e
          ((c.block 0).map (Item.place k (place e count)) ++ rest e) r t) ∨
      At (t2cHost env mb) f (Tier1.settle env (impl env ir {} false cycle ir.pc s)) (fun fuel =>
        runItems (t2cHost env mb) (runBlocks (t2cHost env mb) f.frag.block fuel) e
          ((c.block 0).map (Item.place k (place e count)) ++ rest e) r t) := by
  obtain ⟨handed', exit, t', hx, ht', hexit⟩ := tail_runs hext hfit cycle (r.shift k) t ht
  unfold t2cRun at hx
  rw [hcode, Option.bind_some] at hx
  obtain ⟨y, hy, heq⟩ := Option.map_eq_some_iff.mp hx
  cases heq
  have hlt (o : Option Builder) (ho : ∀ b, o = some b → b < c.count) : o.getD 0 < c.count := by
    cases o with
    | none => exact hform.count
    | some b => exact ho b rfl
  have hfall (j : Nat) (hj : exit = .fall j) : j < c.count := by
    subst hj
    rcases hexit with ⟨rfl, -⟩ | ⟨rfl, -⟩
    · exact hlt _ hform.taken
    · exact hlt _ hform.untaken
  obtain ⟨m, r', hm⟩ := Fragment.exec_placed hform.bounded hform.forward
    hform.count hlies r t hy hfall
  cases exit with
  | ret => exact .inl ⟨m, .ret, t', ht', .inl ⟨rfl, hexit⟩, hm⟩
  | left q =>
    obtain rfl : q = _ := hexit
    exact .inl ⟨m, _, t', ht', .inr rfl, hm⟩
  | fall b =>
    right
    have hnone (hterm : t2cInsnIsTerminal false ir.opcode = true) : False := by
      obtain ⟨htaken, huntaken⟩ := hfit.terminal hterm
      rcases hexit with ⟨-, hlink, -⟩ | ⟨-, hlink, -⟩
      · rw [htaken] at hlink
        cases hlink
      · rw [huntaken] at hlink
        cases hlink
    have hrun := hlinks.resolve_left hnone
    have htk : out.taken.getD e = place e count (handed.taken.getD 0) := by
      rw [hout]
      exact getD_place ..
    have hutk : out.untaken.getD e = place e count (handed.untaken.getD 0) := by
      rw [hout]
      exact getD_place ..
    rcases hexit with ⟨hb, hlink, hvalid, hfirst⟩ | ⟨hb, hlink, hvalid⟩
    · obtain ⟨dest, hdest, hhead⟩ := hrun.taken _ hlink hvalid (hfirst.imp_right fun hne => by
        rw [htk, hutk, ← hb]
        exact fun heq => hne ((place_inj he).mp heq))
      rw [htk, ← hb] at hhead
      refine ⟨m, dest, r', t', ht', hdest, fun fuel => (hm fuel).trans (resume_branch ?_ r' t')⟩
      exact hhead
    · obtain ⟨dest, hdest, hhead⟩ := hrun.untaken _ hlink hvalid
      rw [hutk, ← hb] at hhead
      refine ⟨m, dest, r', t', ht', hdest, fun fuel => (hm fuel).trans (resume_branch ?_ r' t')⟩
      exact hhead

/-- The code of the nodes that are left, by induction on them. -/
theorem nodes_run (hext : env.extC = true) {irs : List Insn} {items : List (Item HostPtr Gep)}
    (hat : NodesAt ⟨false, mb, chk⟩ lk f.frag e own rest out irs items)
    (hlinks : (∃ tail, irs.getLast? = some tail ∧ t2cInsnIsTerminal false tail.opcode = true) ∨
      LinksRun ⟨false, mb, chk⟩ lk f e rest out) (cycle : BitVec 64) (pc : Word) (s : Cpu)
    (hfits : T2cBlockFits env ⟨false, mb, chk⟩ lk irs pc s) (r : Regs HostPtr) {t : T2cState} (ht : Mirrors s t) :
    Left (Tier1.settle env (runIr env irs cycle pc s)) (fun fuel =>
        runItems (t2cHost env mb) (runBlocks (t2cHost env mb) f.frag.block fuel) e items r t) ∨
      At (t2cHost env mb) f (Tier1.settle env (runIr env irs cycle pc s)) (fun fuel =>
        runItems (t2cHost env mb) (runBlocks (t2cHost env mb) f.frag.block fuel) e items r t) := by
  induction hat generalizing cycle pc s r t with
  | @tail ir handed c k count hcode hform he hout hown hlies =>
    obtain ⟨rfl, hfit⟩ := hfits
    rw [runIr_cons, settle_andThen_nil]
    refine tail_run hext hfit (hlinks.imp_left fun hl => ?_) hcode hform hout he hlies cycle r ht
    obtain ⟨tail, htail, hterm⟩ := hl
    obtain rfl : ir = tail := Option.some_inj.mp htail
    exact hterm
  | @node ir next irs c k count items hcode hform hcount hat ih =>
    obtain ⟨rfl, hfit, hrest⟩ := hfits
    have hnode : NodeRuns env ⟨false, mb, chk⟩ {} ir s := node_runs hfit
    obtain ⟨s1, himpl, hrun⟩ := hnode
    obtain ⟨cycle1, hnext⟩ := himpl cycle
    obtain ⟨t1, hx, ht1⟩ := hrun (r.shift k) t ht
    unfold t2cRun at hx
    rw [hcode, Option.bind_some] at hx
    obtain ⟨y, hy, heq⟩ := Option.map_eq_some_iff.mp hx
    cases heq
    have hlies (j : Nat) (hj : 0 < j) (hlt : j < c.count) : f.frag.block (place e count j) =
        (c.block j).map (Item.place k (place e count)) ++ (fun _ => items) j := by
      omega
    obtain ⟨m, r', hm⟩ := Fragment.exec_placed hform.bounded hform.forward hform.count hlies r t hy fun j hj => by
      cases hj
      exact hform.count
    rw [runIr_cons, hnext, Ctl.andThen_next]
    rw [List.getLast?_cons_cons] at hlinks
    refine (ih hlinks cycle1 _ s1 (hrest _ _ _ _ hnext) r' ht1).imp (fun hl => hl.behind hm) fun ha => ha.behind hm

end Block

/-! ## Runs through several blocks -/

section Function

variable {env : Env} {tenv : TraceEnv} {root : TraceBlock} {f : Trace}

/-- The interpreter, for `n` blocks of the cache; it stops where there is none. -/
def runTraced (env : Env) (cache : Word → Option TraceBlock) : Nat → Cpu → Cpu
  | 0, s => s
  | n + 1, s => (cache s.PC).elim s fun blk =>
    runTraced env cache n (Tier1.settle env (runIr env blk.irs s.csr.cycle s.PC s))

theorem block_run (hext : env.extC = true) (hsys : tenv.system = false) {own : Builder → Prop} {x : Word × Builder}
    (hcode : Compiled tenv root f own x) {blk : TraceBlock} (hblk : ∀ b, Traced tenv root b → b.pc = some x.1 → b = blk)
    (cycle : BitVec 64) (s : Cpu) (hfits : T2cBlockFits env (tenv.t2cEnv blk.satp) blk.links blk.irs x.1 s)
    (r : Regs HostPtr) {t : T2cState} (ht : Mirrors s t) :
    Left (Tier1.settle env (runIr env blk.irs cycle x.1 s)) (fun fuel =>
        runBlocks (t2cHost env tenv.memBase) f.frag.block fuel x.2 r t) ∨
      At (t2cHost env tenv.memBase) f (Tier1.settle env (runIr env blk.irs cycle x.1 s)) (fun fuel =>
        runBlocks (t2cHost env tenv.memBase) f.frag.block fuel x.2 r t) := by
  obtain ⟨b, rest, out, htraced, hpc, hat, hlinks⟩ := hcode
  obtain rfl := hblk b htraced hpc
  have hcfg : tenv.t2cEnv b.satp = ⟨false, tenv.memBase, fun pc => (tenv.find b.satp pc).isSome⟩ := by
    rw [TraceEnv.t2cEnv, hsys]
  rw [hcfg] at hat hfits
  have hrun : (∃ tail, b.irs.getLast? = some tail ∧ t2cInsnIsTerminal false tail.opcode = true) ∨
      LinksRun ⟨false, tenv.memBase, fun pc => (tenv.find b.satp pc).isSome⟩ b.links f x.2 rest out := by
    rw [hsys] at hlinks
    refine hlinks.imp_right fun hl => ⟨fun pc hpc hvalid => ?_, fun pc hpc hvalid hne => ?_⟩
    · obtain ⟨blk', hfind⟩ := Option.isSome_iff_exists.mp hvalid
      exact hl.untaken pc blk' hpc hfind
    · obtain ⟨blk', hfind⟩ := Option.isSome_iff_exists.mp hvalid
      exact hl.taken pc blk' hpc hfind hne
  have hstep (fuel : Nat) : runBlocks (t2cHost env tenv.memBase) f.frag.block (1 + fuel) x.2 r t =
      runItems (t2cHost env tenv.memBase) (runBlocks (t2cHost env tenv.memBase) f.frag.block fuel) x.2
        (f.frag.block x.2) r t := by
    rw [Nat.add_comm]
    rfl
  exact (nodes_run hext hat hrun cycle x.1 s hfits r ht).imp (fun hl => hl.behind hstep) fun ha => ha.behind hstep

/-- From the LLVM block of the interpreter's `PC`, through `n` blocks. -/
theorem blocks_run (hext : env.extC = true) (hsys : tenv.system = false) (hfiled : tenv.Filed)
    (hroot : ∀ pc, root.pc = some pc → tenv.cache pc = some root) (hfun : FunctionAt tenv root f) (n : Nat) (s : Cpu)
    (e : Builder) (r : Regs HostPtr) (t : T2cState) (ht : Mirrors s t) (he : (s.PC, e) ∈ f.map)
    (hfits : ∀ k < n, ∀ blk, tenv.cache (runTraced env tenv.cache k s).PC = some blk →
      T2cBlockFits env (tenv.t2cEnv blk.satp) blk.links blk.irs (runTraced env tenv.cache k s).PC
        (runTraced env tenv.cache k s)) :
    ∃ k ≤ n, Left (runTraced env tenv.cache k s)
        (fun fuel => runBlocks (t2cHost env tenv.memBase) f.frag.block fuel e r t) ∨
      k = n ∧ At (t2cHost env tenv.memBase) f (runTraced env tenv.cache k s)
        (fun fuel => runBlocks (t2cHost env tenv.memBase) f.frag.block fuel e r t) := by
  induction n generalizing s e r t with
  | zero => exact ⟨0, Nat.le_refl 0, .inr ⟨rfl, 0, e, r, t, ht, he, fun fuel => by rw [Nat.zero_add]⟩⟩
  | succ n ih =>
    obtain ⟨own, hcode⟩ := hfun.code (s.PC, e) he
    obtain ⟨blk, hblk⟩ : ∃ blk, tenv.cache s.PC = some blk ∧ ∀ b, Traced tenv root b → b.pc = some s.PC → b = blk := by
      obtain ⟨blk, -, -, htraced, hpc, -⟩ := hcode
      have hcache := Traced.cache hfiled htraced (hroot s.PC) hpc
      exact ⟨blk, hcache, fun b hb hbpc =>
        Option.some_inj.mp ((Traced.cache hfiled hb (hroot s.PC) hbpc).symm.trans hcache)⟩
    have hstep (k : Nat) : runTraced env tenv.cache (k + 1) s =
        runTraced env tenv.cache k (Tier1.settle env (runIr env blk.irs s.csr.cycle s.PC s)) := by
      rw [runTraced, hblk.1]
      rfl
    have hfirst := hfits 0 (Nat.succ_pos n) blk hblk.1
    rcases block_run hext hsys hcode hblk.2 s.csr.cycle s hfirst r ht with hleft | ⟨m, dest, r', t', ht', hdest, hx⟩
    · refine ⟨1, Nat.succ_le_succ (Nat.zero_le n), .inl ?_⟩
      rw [hstep]
      exact hleft
    · obtain ⟨k, hk, hend⟩ := ih _ dest r' t' ht' hdest fun k hk b hb => by
        rw [← hstep] at hb ⊢
        exact hfits (k + 1) (Nat.succ_lt_succ hk) b hb
      refine ⟨k + 1, Nat.succ_le_succ hk, ?_⟩
      rw [hstep]
      exact hend.imp (fun hl => hl.behind hx) fun ha => ⟨congrArg _ ha.1, ha.2.behind hx⟩

/-- **The function that `t2c_compile` builds does what the interpreter does on the blocks it runs through**: after some
of them it has left in the interpreter's state, or it stands at the block of the interpreter's `PC` after all `n`. -/
theorem function_sound (hext : env.extC = true) (hsys : tenv.system = false) (hfiled : tenv.Filed)
    (hroot : ∀ pc, root.pc = some pc → tenv.cache pc = some root)
    (hok : ∀ blk, Traced tenv root blk → NodesOk blk.irs) (hfun : t2cFunction tenv root = some f) (n : Nat) (s : Cpu)
    (hpc : root.pc = some s.PC) (r : Regs HostPtr) (t : T2cState) (ht : Mirrors s t)
    (hfits : ∀ k < n, ∀ blk, tenv.cache (runTraced env tenv.cache k s).PC = some blk →
      T2cBlockFits env (tenv.t2cEnv blk.satp) blk.links blk.irs (runTraced env tenv.cache k s).PC
        (runTraced env tenv.cache k s)) :
    ∃ k ≤ n, Left (runTraced env tenv.cache k s)
        (fun fuel => runBlocks (t2cHost env tenv.memBase) f.frag.block fuel 0 r t) ∨
      k = n ∧ At (t2cHost env tenv.memBase) f (runTraced env tenv.cache k s)
        (fun fuel => runBlocks (t2cHost env tenv.memBase) f.frag.block fuel 0 r t) := by
  have hat := function_compiled hsys hfiled hok hfun
  have hstart (fuel : Nat) : runBlocks (t2cHost env tenv.memBase) f.frag.block (1 + fuel) 0 r t =
      runBlocks (t2cHost env tenv.memBase) f.frag.block fuel 1 r { t with insnCounter := 0 } := by
    rw [Nat.add_comm, runBlocks, hat.start]
    rfl
  obtain ⟨k, hk, hend⟩ := blocks_run hext hsys hfiled hroot hat n s 1 r { t with insnCounter := 0 }
    ⟨ht.X, ht.mem, ht.published⟩ (hat.first s.PC hpc) hfits
  exact ⟨k, hk, hend.imp (fun hl => hl.behind hstart) fun ha => ⟨ha.1, ha.2.behind hstart⟩⟩

end Function

/-- A machine in front of the loop of `loopEnv`, with `a0 = 2`. -/
def loopCpu : Cpu := { (Cpu.zero fun _ => 0).setX 10 2 with PC := 4 }

/-- The process in front of it, with nothing published. -/
def loopState : T2cState := ⟨loopCpu, 0, fun _ _ => {}⟩

theorem loopState_mirrors : Mirrors loopCpu loopState where
  X := rfl
  mem := rfl
  published _ _ _ h := by cases h

theorem loopEnv_fits {pc : Word} {blk : TraceBlock} (h : loopEnv.cache pc = some blk) :
    NodesOk blk.irs ∧ ∀ s, T2cBlockFits (Env.bare false) (loopEnv.t2cEnv blk.satp) blk.links blk.irs pc s := by
  simp only [loopEnv] at h
  split_ifs at h with h4 h12
  · cases h
    subst h4
    have haddi (s : Cpu) : Insn.NodeFits { opcode := .addi, rd := 10, rs1 := 10, imm := -1, pc := 4 } s := by
      refine ⟨trivial, trivial, fun n hn => ?_, trivial, fun hop => ?_⟩
      · cases hn
      · cases hop
    refine ⟨.node trivial (.tail (.inr trivial)), fun s => ⟨rfl, haddi s, fun cycle cycle' pc' s' hnext => ?_⟩⟩
    cases hnext
    refine ⟨rfl, fun pc hpc => ?_, fun pc hpc => ?_⟩
    · cases hpc
      rfl
    · cases hpc
      rfl
  · cases h
    subst h12
    exact ⟨.tail (.inr trivial), fun s => ⟨rfl, rfl, rfl⟩⟩

/-- The loop, for three blocks. -/
theorem function_sound_loop : ∃ root f, loopEnv.cache 4 = some root ∧ t2cFunction loopEnv root = some f ∧
    ∀ r, ∃ k ≤ 3, Left (runTraced (Env.bare false) loopEnv.cache k loopCpu)
        (fun fuel => runBlocks (t2cHost (Env.bare false) 0) f.frag.block fuel 0 r loopState) ∨
      k = 3 ∧ At (t2cHost (Env.bare false) 0) f (runTraced (Env.bare false) loopEnv.cache k loopCpu)
        (fun fuel => runBlocks (t2cHost (Env.bare false) 0) f.frag.block fuel 0 r loopState) := by
  obtain ⟨root, hroot⟩ := Option.isSome_iff_exists.mp (by decide : (loopEnv.cache 4).isSome = true)
  have hsome : ((loopEnv.cache 4).bind (t2cFunction loopEnv)).isSome = true := by decide +kernel
  rw [hroot] at hsome
  obtain ⟨f, hf⟩ := Option.isSome_iff_exists.mp hsome
  have hpc : root.pc = some 4 := loopEnv_filed 4 root hroot
  refine ⟨root, f, hroot, hf, fun r => ?_⟩
  refine function_sound rfl rfl loopEnv_filed (fun pc hpc' => ?_) (fun blk htraced => ?_) hf 3 loopCpu hpc r loopState
    loopState_mirrors fun k _ blk hblk => (loopEnv_fits hblk).2 _
  · obtain rfl : 4 = pc := Option.some_inj.mp (hpc.symm.trans hpc')
    exact hroot
  · rcases Relation.ReflTransGen.cases_tail htraced with rfl | ⟨blk', -, tail, pc, -, -, -, hfind⟩
    · exact (loopEnv_fits hroot).1
    · exact (loopEnv_fits (TraceEnv.find_eq_some hfind).1).1

end Rv32emu
