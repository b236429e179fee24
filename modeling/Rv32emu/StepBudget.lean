import Rv32emu.BlockHistory
import Rv32emu.Chain
import Rv32emu.FusionTrap

/-!
# The cycle budget of `rv_step`

The budget is tested at the head of the loop only. Chained blocks and hits of the branch history table go
on by tail calls, past the test, and `mret` returns without storing the cycle count.

* `Insn.count`, `executed` : how many instructions a node stands for, and how many a run has executed;
* `impl_counts` : a handler adds the instructions of its node to the cycle count;
* `Conf.Spent` : what a call has executed so far, kept by a step (`Spent.step`);
* `rvStep_prompt` : a call in which no tail call is made past the budget, and no `mret`, is over in time;
* `spin_never_returns` : `j .` is linked to itself, and `rv_step` does not return.
-/

namespace Rv32emu

/-! ## Instructions -/

def Insn.count (ir : Insn) : Nat :=
  match ir.opcode with
  | .fuse1 | .fuse3 | .fuse4 | .fuse5 | .fuse7 => ir.fuse.length
  | .fuse2 | .fuse6 | .fuse8 | .fuse9 | .fuse10 | .fuse11 | .fuse12 => 2
  | _ => 1

def countInsns (irs : List Insn) : Nat := (irs.map Insn.count).sum

theorem countInsns_cons (ir : Insn) (irs : List Insn) : countInsns (ir :: irs) = ir.count + countInsns irs :=
  List.sum_cons

/-- The instructions executed by the handlers of a run; one that traps inside a fused node counts in full. -/
def executed : List Event → Nat
  | [] => 0
  | .exec ir _ :: events => ir.count + executed events
  | _ :: events => executed events

theorem executed_append (l l' : List Event) : executed (l ++ l') = executed l + executed l' := by
  induction l with
  | nil => exact (Nat.zero_add _).symm
  | cons ev l ih =>
    cases ev with
    | exec ir pc => rw [List.cons_append, executed, executed, ih, Nat.add_assoc]
    | illegal | tailCall => exact ih

/-- What the handler of a node adds to the cycle count. -/
def Insn.cycles (ir : Insn) : BitVec 64 :=
  match ir.opcode with
  | .fuse1 | .fuse3 | .fuse4 | .fuse5 | .fuse7 => ir.imm2.signExtend 64
  | .fuse2 | .fuse6 | .fuse8 | .fuse9 | .fuse10 | .fuse11 | .fuse12 => 2
  | _ => 1

/-- The node knows how many instructions it stands for. -/
structure Insn.Counted (ir : Insn) : Prop where
  cycles : ir.cycles = BitVec.ofNat 64 ir.count
  pos : 0 < ir.count

theorem Insn.counted_of_not_fuse {ir : Insn} (h : ir.opcode.isFuse = false) : ir.Counted := by
  have hone : ir.cycles = 1 ∧ ir.count = 1 := by
    unfold Insn.cycles Insn.count
    cases hop : ir.opcode <;> rw [hop] at h <;> first | exact ⟨rfl, rfl⟩ | cases h
  exact ⟨by rw [hone.1, hone.2]; rfl, by rw [hone.2]; exact Nat.one_pos⟩

theorem SeqFusion.counted {p : Opcode → Bool} {op : Opcode} (hseq : SeqFusion p op) (ir : Insn) {l : List OpcodeFuse}
    (hlen : l.length ≤ fuseMaxEntries) (hpos : 0 < l.length) :
    Insn.Counted { ir with opcode := op, imm2 := BitVec.ofNat 32 l.length, fuse := l } := by
  have hsign : (BitVec.ofNat 32 l.length).signExtend 64 = BitVec.ofNat 64 l.length := by
    unfold fuseMaxEntries at hlen
    interval_cases l.length <;> rfl
  cases hseq <;> exact ⟨hsign, hpos⟩

theorem FusedFrom.counted {node : Insn} {l : List Insn} (h : FusedFrom node l)
    (hl : ∀ x ∈ l, x.opcode.isFuse = false) : node.Counted := by
  cases h with
  | same ir => exact Insn.counted_of_not_fuse (hl node (List.mem_singleton_self node))
  | seq hseq ir l hall hlen =>
    have hlength : ((ir :: l).map Insn.toFuse).length = l.length + 1 := by simp
    rw [← hlength]
    exact hseq.counted ir (by rw [hlength]; exact hlen) (by rw [hlength]; exact Nat.succ_pos _)
  | fuse2 | fuse6 | fuse8 | fuse9 | fuse10 | fuse11 | fuse12 => exact ⟨rfl, Nat.two_pos⟩

theorem Block.TranslatedIn.counted {env : Env} {host : Host} {s : Cpu} {b : Block} (h : b.TranslatedIn env host s) :
    ∀ ir ∈ b.irs, ir.Counted := by
  obtain ⟨-, r, hirs⟩ := h
  have hblock : IrBlock env.extC s.PC (blockTranslate env.extC s.ifetch s.PC).1 := translateLoop_irBlock ..
  intro ir hir
  rw [hirs, ← matchGroups_fst] at hir
  obtain ⟨g, hg, rfl⟩ := List.mem_map.mp hir
  refine (matchGroups_fusedFrom _ _ g hg).counted fun x hx => hblock.optimizeConstant_unfused.not_fuse x ?_
  rw [← matchGroups_snd (host.fuseAlloc r) (optimizeConstant _)]
  exact List.mem_flatMap.mpr ⟨g, hg, hx⟩

/-! ## The cycle count of a handler -/

/-- A body saves the count `n` before it leaves the handler. -/
def Flow.CountsTo (n : BitVec 64) : Flow → Prop
  | .ret ok s => ok = true → s.csr.cycle = n
  | .trap _ s => s.csr.cycle = n
  | .next _ | .endOp _ _ | .lookup _ _ | .chain _ _ _ => True

/-- A handler passes the count `n` on or saves it. -/
def Ctl.CountsTo (n : BitVec 64) : Ctl → Prop
  | .next cycle _ _ | .enter _ cycle _ _ | .lookup cycle _ _ => cycle = n
  | .ret ok s => ok = true → s.csr.cycle = n
  | .trap _ s => s.csr.cycle = n

section Counts

variable (env : Env) (ir : Insn) (lk : Links) (noNext : Bool) (cycle : BitVec 64) (pc : Word) (s : Cpu)

theorem chainOr_counts (link : Option Ref) : (chainOr link pc s).CountsTo cycle := by
  cases link <;> trivial

theorem exec_counts (code : Code) (hcode : code ≠ .mret) : (code.exec env ir lk cycle pc s).CountsTo cycle := by
  cases code with
  | mret => exact absurd rfl hcode
  | fencei => exact fun _ => rfl
  | fail => exact fun h => by cases h
  | set | skip | fpu | fpuX | csr | jal | jalr | cjal | cj | cjr | cjalr | leave | ecall | ebreak =>
    simp only [Code.exec]
    first
    | trivial
    | rfl
    | exact chainOr_counts ..
    | split_ifs <;> first | rfl | trivial | exact chainOr_counts ..
  | load | store | lrw | scw | amo | flw | fsw =>
    simp only [Code.exec]
    split_ifs <;> first | rfl | trivial
  | branch =>
    simp only [Code.exec]
    split_ifs <;> first | rfl | trivial
  | cbranch =>
    simp only [Code.exec]
    split_ifs <;> first | trivial | exact chainOr_counts ..

theorem endOp_counts : (endOp ir lk cycle pc s).CountsTo cycle := by
  unfold endOp
  split
  · rfl
  · exact fun _ => rfl

theorem doRvop_counts (hop : rvop ir.opcode ≠ .mret) :
    (doRvop env ir lk noNext cycle pc s).CountsTo (cycle + 1) := by
  have hcounts := exec_counts env ir lk (cycle + 1) pc s (rvop ir.opcode) hop
  unfold doRvop
  simp only
  split
  · split_ifs
    · exact endOp_counts ..
    · rfl
  · exact endOp_counts ..
  · rfl
  · rfl
  · rename_i h
    rw [h] at hcounts
    exact hcounts
  · rename_i h
    rw [h] at hcounts
    exact hcounts

theorem fuseNextOrStop_counts : (fuseNextOrStop noNext cycle pc s).CountsTo cycle := by
  unfold fuseNextOrStop
  split_ifs
  · exact fun _ => rfl
  · rfl

theorem fuseSeq_counts (body : FuseBody) :
    (fuseSeq body ir noNext cycle pc s).CountsTo (cycle + ir.imm2.signExtend 64) := by
  unfold fuseSeq
  simp only
  split
  · exact fuseNextOrStop_counts ..
  · rfl

/-- **A handler adds the instructions of its node to the cycle count**; `mret` does not store it. -/
theorem impl_counts (hop : ir.opcode ≠ .mret) :
    (impl env ir lk noNext cycle pc s).CountsTo (cycle + ir.cycles) := by
  unfold impl Insn.cycles
  cases hopcode : ir.opcode
  case fuse1 | fuse3 | fuse4 | fuse5 | fuse7 => exact fuseSeq_counts ..
  case fuse2 | fuse8 => exact fuseNextOrStop_counts ..
  case fuse6 => rfl
  case fuse9 | fuse10 | fuse11 =>
    simp only [doFuse9, doFuse10, doFuse11]
    split
    · rename_i h
      unfold checkAligned at h
      split_ifs at h
      cases h
      rfl
    · exact fuseNextOrStop_counts ..
  case fuse12 =>
    simp only [doFuse12]
    split_ifs <;> split <;> first | rfl | exact fun _ => rfl
  case mret => exact absurd hopcode hop
  all_goals
    refine doRvop_counts env ir lk noNext cycle pc s ?_
    rw [hopcode]
    simp [rvop, Code.bin, Code.imm, Code.un]

end Counts

/-- Taking a trap leaves the cycle count alone, if the system calls do. -/
theorem Trap.take_cycle {env : Env} (hsys : ∀ host s, (env.syscallHandler host s).csr.cycle = s.csr.cycle) (t : Trap)
    (s : Cpu) : (t.take env s).1.csr.cycle = s.csr.cycle := by
  have hraise : (raise env t.cause t.tval (s.withCycle s.csr.cycle)).csr.cycle = s.csr.cycle := by
    rw [raise_withCycle]
    rfl
  unfold Trap.take
  simp only
  split
  · exact hraise
  · exact hraise
  · exact (hsys _ _).trans hraise

/-! ## One call of `rv_step` -/

namespace Conf

variable {env : Env} {host : Host} {c : Conf} {start budget longest n : Nat}

/-- The blocks of the map have been counted, and none is longer than `longest`. -/
def Blocks (longest : Nat) (c : Conf) : Prop :=
  ∀ r b, c.eng.block r = some b → countInsns b.irs ≤ longest ∧ ∀ ir ∈ b.irs, ir.Counted

/-- A tail call across blocks is made below the budget. -/
def ChainsInBudget (env : Env) (host : Host) (c : Conf) : Prop :=
  ∀ r pc, .tailCall r pc ∈ (c.step env host).2 →
    ∀ disp cur rest cycle pc', (c.step env host).1.loc = .run disp cur rest cycle pc' → cycle < c.target

def NoMret (env : Env) (host : Host) (c : Conf) : Prop :=
  ∀ ir pc, .exec ir pc ∈ (c.step env host).2 → ir.opcode ≠ .mret

/-- A call that began at the cycle count `start` has executed `n` instructions. -/
def Spent (start budget longest n : Nat) (c : Conf) : Prop :=
  match c.loc with
  | .head => c.target.toNat = start + budget ∧ c.cpu.csr.cycle.toNat = start + n ∧ n < budget + longest
  | .run _ _ rest cycle _ =>
    c.target.toNat = start + budget ∧ cycle.toNat = start + n ∧ n + countInsns rest < budget + longest ∧
      ∀ ir ∈ rest, ir.Counted
  | .left | .dead => n < budget + longest

theorem Spent.lt (h : Spent start budget longest n c) : n < budget + longest := by
  unfold Spent at h
  split at h
  · exact h.2.2
  · exact lt_of_le_of_lt (Nat.le_add_right _ _) h.2.2.1
  · exact h
  · exact h

theorem spent_returned (c : Conf) (disp : Ref) (ok : Bool)
    (htarget : c.target.toNat = start + budget) (hlt : n < budget + longest)
    (hcycle : ok = true → c.cpu.csr.cycle.toNat = start + n) :
    Spent start budget longest n (c.handlerReturned disp ok) := by
  unfold handlerReturned
  cases ok with
  | false => exact hlt
  | true => exact ⟨htarget, hcycle rfl, hlt⟩

theorem spent_enter {disp r : Ref} {cycle : BitVec 64} {pc : Word} (htarget : c.target.toNat = start + budget)
    (hlt : n < budget + longest) (hcycle : cycle.toNat = start + n) (hblocks : c.Blocks longest)
    (hbudget : ∀ disp' cur rest cycle' pc', (c.enter disp r cycle pc).1.loc = .run disp' cur rest cycle' pc' →
      cycle' < c.target) :
    Spent start budget longest n (c.enter disp r cycle pc).1 := by
  unfold enter at hbudget ⊢
  cases hb : c.eng.block r with
  | none => exact hlt
  | some b =>
    simp only [hb] at hbudget ⊢
    have hless := BitVec.lt_def.mp (hbudget disp r b.irs cycle pc rfl)
    refine ⟨htarget, hcycle, ?_, (hblocks r b hb).2⟩
    have hlength := (hblocks r b hb).1
    omega

theorem enter_events (c : Conf) (disp r : Ref) (cycle : BitVec 64) (pc : Word) :
    (c.enter disp r cycle pc).2 = [.tailCall r pc] := by
  unfold enter
  split <;> rfl

/-- The branch history table is consulted at the end of a block. -/
theorem spent_lookup {disp cur : Ref} {cycle : BitVec 64} {pc : Word} (htarget : c.target.toNat = start + budget)
    (hlt : n < budget + longest) (hcycle : cycle.toNat = start + n)
    (hblocks : (c.lookupBranch disp cur cycle pc).1.Blocks longest)
    (hbudget : ∀ r pc', .tailCall r pc' ∈ (c.lookupBranch disp cur cycle pc).2 → ∀ disp' cur' rest cycle' pc',
      (c.lookupBranch disp cur cycle pc).1.loc = .run disp' cur' rest cycle' pc' → cycle' < c.target) :
    Spent start budget longest n (c.lookupBranch disp cur cycle pc).1 ∧
      executed (c.lookupBranch disp cur cycle pc).2 = 0 := by
  unfold lookupBranch at hblocks hbudget ⊢
  dsimp only at hblocks hbudget ⊢
  split
  · rename_i r hentry
    simp only [hentry] at hblocks hbudget
    rw [enter_events] at hbudget ⊢
    refine ⟨spent_enter htarget hlt hcycle (fun q b hb => hblocks q b ?_)
      (hbudget r pc (List.mem_singleton_self _)), rfl⟩
    rwa [enter_eng]
  · rename_i r hentry hindex
    simp only [hentry, hindex] at hblocks hbudget
    rw [enter_events] at hbudget ⊢
    refine ⟨spent_enter htarget hlt hcycle (fun q b hb => hblocks q b ?_)
      (hbudget r pc (List.mem_singleton_self _)), rfl⟩
    rwa [enter_eng]
  · exact ⟨spent_returned { c with cpu := c.cpu.save cycle pc } disp true htarget hlt fun _ => hcycle, rfl⟩

theorem spent_stepRun (hsys : ∀ host s, (env.syscallHandler host s).csr.cycle = s.csr.cycle) {disp cur : Ref}
    {ir : Insn} {rest : List Insn} {cycle : BitVec 64} {pc : Word} (htarget : c.target.toNat = start + budget)
    (hwrap : start + budget + longest < 2 ^ 64) (hcycle : cycle.toNat = start + n)
    (hlt : n + countInsns (ir :: rest) < budget + longest) (hcounted : ∀ x ∈ ir :: rest, x.Counted)
    (hop : ir.opcode ≠ .mret) (hblocks : (c.stepRun env disp cur (ir :: rest) cycle pc).1.Blocks longest)
    (hbudget : ∀ r pc', .tailCall r pc' ∈ (c.stepRun env disp cur (ir :: rest) cycle pc).2 →
      ∀ disp' cur' rest' cycle' pc',
        (c.stepRun env disp cur (ir :: rest) cycle pc).1.loc = .run disp' cur' rest' cycle' pc' → cycle' < c.target) :
    Spent start budget longest (n + executed (c.stepRun env disp cur (ir :: rest) cycle pc).2)
      (c.stepRun env disp cur (ir :: rest) cycle pc).1 := by
  rw [countInsns_cons] at hlt
  have hcount : (cycle + ir.cycles).toNat = start + (n + ir.count) := by
    rw [(hcounted ir List.mem_cons_self).cycles, BitVec.toNat_add, BitVec.toNat_ofNat, hcycle]
    omega
  have hlt' : n + ir.count < budget + longest := by omega
  unfold stepRun at hblocks hbudget ⊢
  simp only at hblocks hbudget ⊢
  generalize hlk : (if rest.isEmpty then (c.eng.block cur).elim {} Block.links else {}) = lk at hblocks hbudget ⊢
  have hcounts := impl_counts env ir lk rest.isEmpty cycle pc c.cpu hop
  cases himpl : impl env ir lk rest.isEmpty cycle pc c.cpu with
  | next cycle' pc' s =>
    rw [himpl] at hcounts
    obtain rfl : cycle' = cycle + ir.cycles := hcounts
    simp only [executed, Nat.add_zero]
    exact ⟨htarget, hcount, by omega, fun x hx => hcounted x (List.mem_cons_of_mem ir hx)⟩
  | enter r cycle' pc' s =>
    rw [himpl] at hcounts
    obtain rfl : cycle' = cycle + ir.cycles := hcounts
    simp only [himpl, enter_events, executed, Nat.add_zero] at hblocks hbudget ⊢
    refine spent_enter htarget hlt' hcount (fun q b hb => hblocks q b ?_) (hbudget r pc' (by simp))
    rwa [enter_eng]
  | lookup cycle' pc' s =>
    rw [himpl] at hcounts
    obtain rfl : cycle' = cycle + ir.cycles := hcounts
    simp only [himpl, executed] at hblocks hbudget ⊢
    obtain ⟨hspent, hzero⟩ := spent_lookup (c := { c with cpu := s }) htarget hlt' hcount hblocks
      fun r p hr => hbudget r p (List.mem_cons_of_mem _ hr)
    rw [hzero]
    exact hspent
  | ret ok s =>
    rw [himpl] at hcounts
    simp only [executed, Nat.add_zero]
    exact spent_returned { c with cpu := s } disp ok htarget hlt' fun hok => by rw [hcounts hok, hcount]
  | trap t s =>
    rw [himpl] at hcounts
    have htake : (t.take env s).1.csr.cycle = cycle + ir.cycles := (t.take_cycle hsys s).trans hcounts
    simp only
    split_ifs
    all_goals simp only [executed, Nat.add_zero]
    · exact hlt'
    · exact spent_returned { c with cpu := (t.take env s).1 } disp _ htarget hlt' fun _ => by rw [htake, hcount]

theorem raiseIllegal_cycle (env : Env) (s : Cpu) (stop : Stop) :
    (raiseIllegal env s stop).1.csr.cycle = s.csr.cycle := by
  unfold raiseIllegal
  split
  · rename_i insn
    have hraise :
        (raise env .illegalInsn insn ({ s with compressed := isCompressed insn }.withCycle s.csr.cycle)).csr.cycle =
        s.csr.cycle := by
      rw [raise_withCycle]
      rfl
    exact hraise
  · rfl

theorem blockFindOrTranslate_cycle (env : Env) (host : Host) (e : Engine) (s : Cpu) :
    (blockFindOrTranslate env host e s).2.2.1.csr.cycle = s.csr.cycle := by
  unfold blockFindOrTranslate
  rcases e.blockLookupOrFind env.extC s.PC with ⟨_ | r, e1⟩
  · simp only
    generalize (if mapFull e1.size then { e1.blockMapClear with prev := none } else e1) = e2
    split
    · rfl
    · split_ifs
      all_goals exact raiseIllegal_cycle env s _
  · rfl

theorem executed_raiseIllegal (env : Env) (s : Cpu) (stop : Stop) : executed (raiseIllegal env s stop).2 = 0 := by
  unfold raiseIllegal
  split <;> rfl

theorem executed_findOrTranslate (env : Env) (host : Host) (e : Engine) (s : Cpu) :
    executed (blockFindOrTranslate env host e s).2.2.2 = 0 := by
  unfold blockFindOrTranslate
  rcases e.blockLookupOrFind env.extC s.PC with ⟨_ | r, e1⟩
  · simp only
    generalize (if mapFull e1.size then { e1.blockMapClear with prev := none } else e1) = e2
    split
    · rfl
    · split_ifs
      all_goals exact executed_raiseIllegal env s _
  · rfl

theorem spent_dispatch (htarget : c.target.toNat = start + budget) (hcycle : c.cpu.csr.cycle.toNat = start + n)
    (hless : n < budget) (hblocks : (c.dispatch env host).1.Blocks longest) :
    Spent start budget longest (n + executed (c.dispatch env host).2) (c.dispatch env host).1 := by
  have hcyc := blockFindOrTranslate_cycle env host (c.refreshPrev env) c.cpu
  have hexec := executed_findOrTranslate env host (c.refreshPrev env) c.cpu
  unfold dispatch at hblocks ⊢
  rcases hout : blockFindOrTranslate env host (c.refreshPrev env) c.cpu with ⟨_ | q, e, s, events⟩
  · simp only [hout] at hblocks hexec ⊢
    split_ifs
    all_goals
      rw [hexec]
      exact (Nat.lt_add_right longest hless :)
  · simp only [hout] at hblocks hexec hcyc ⊢
    cases hb : e.block q with
    | none =>
      simp only [hexec]
      exact (Nat.lt_add_right longest hless :)
    | some b =>
      simp only [hb] at hblocks ⊢
      have hlength : countInsns b.irs ≤ longest ∧ ∀ ir ∈ b.irs, ir.Counted := by
        cases hprev : e.prev with
        | none =>
          rw [hprev] at hblocks
          exact hblocks q b hb
        | some p =>
          rw [hprev] at hblocks
          obtain ⟨b', hb', hsame⟩ := BlockMap.modify_of_block .refl (fun b => b.sameCode_link s.isBranchTaken q)
            (q := p) hb
          rw [← hsame.irs]
          exact hblocks q b' hb'
      rw [hexec]
      exact ⟨htarget, by rw [hcyc]; exact hcycle, by have := hlength.1; omega, hlength.2⟩

/-- **One step of a call.** -/
theorem Spent.step (hsys : ∀ host s, (env.syscallHandler host s).csr.cycle = s.csr.cycle)
    (h : Spent start budget longest n c) (hwrap : start + budget + longest < 2 ^ 64) (hleft : c.loc ≠ .left)
    (hblocks : (c.step env host).1.Blocks longest) (hbudget : c.ChainsInBudget env host) (hmret : c.NoMret env host) :
    Spent start budget longest (n + executed (c.step env host).2) (c.step env host).1 := by
  have hlt := h.lt
  unfold Spent at h
  unfold ChainsInBudget NoMret at *
  unfold Conf.step at hblocks hbudget hmret ⊢
  cases hloc : c.loc with
  | left => exact absurd hloc hleft
  | dead =>
    simp only [executed, Nat.add_zero]
    unfold Spent
    rw [hloc]
    exact hlt
  | head =>
    simp only [hloc] at h hblocks hbudget hmret ⊢
    split_ifs at hblocks hbudget hmret ⊢ with hloop
    · refine spent_dispatch h.1 h.2.1 ?_ hblocks
      have hless := BitVec.lt_def.mp hloop.1
      omega
    · exact hlt
  | run disp cur rest cycle pc =>
    simp only [hloc] at h hblocks hbudget hmret ⊢
    obtain ⟨htarget, hcycle, hroom, hcounted⟩ := h
    cases rest with
    | nil => exact hlt
    | cons ir rest =>
      refine spent_stepRun hsys htarget hwrap hcycle hroom hcounted (hmret ir pc ?_) hblocks hbudget
      exact List.mem_cons_self

/-! ### Every step but one an iteration executes something -/

/-- `k` steps of a call have executed `n` instructions. -/
def Paced (k n : Nat) (c : Conf) : Prop :=
  match c.loc with
  | .head => k ≤ 2 * n + 1
  | .run .. => k ≤ 2 * n + 2
  | .left | .dead => k ≤ 2 * n + 3

theorem Paced.le {k : Nat} (h : Paced k n c) : k ≤ 2 * n + 3 := by
  unfold Paced at h
  split at h <;> omega

theorem paced_of_le {k : Nat} (h : k ≤ 2 * n + 1) : Paced k n c := by
  unfold Paced
  split <;> omega

theorem dispatch_ne_head (env : Env) (host : Host) (c : Conf) : (c.dispatch env host).1.loc ≠ .head := by
  unfold dispatch
  split
  · split_ifs <;> simp
  · split <;> simp

theorem Paced.step {k : Nat} (h : Paced k n c) (hspent : Spent start budget longest n c) (hleft : c.loc ≠ .left)
    (hdead : c.loc ≠ .dead) : Paced (k + 1) (n + executed (c.step env host).2) (c.step env host).1 := by
  unfold Conf.step
  cases hloc : c.loc with
  | left => exact absurd hloc hleft
  | dead => exact absurd hloc hdead
  | head =>
    simp only [Paced, hloc] at h
    simp only
    split_ifs
    · have hne := dispatch_ne_head env host c
      unfold Paced
      split
      · rename_i hhead
        exact absurd hhead hne
      · omega
      · omega
      · omega
    · change k + 1 ≤ 2 * (n + 0) + 3
      omega
  | run disp cur rest cycle pc =>
    simp only [Paced, hloc] at h
    simp only [Spent, hloc] at hspent
    cases rest with
    | nil =>
      change k + 1 ≤ 2 * (n + 0) + 3
      omega
    | cons ir rest =>
      have hpos := (hspent.2.2.2 ir List.mem_cons_self).pos
      refine paced_of_le ?_
      simp only [stepRun, executed]
      omega

/-! ### A whole call -/

/-- A configuration of a guest program that started with an empty map. -/
def Reached (env : Env) (host : Host) (c : Conf) : Prop :=
  ∃ s m, c = (stepN env host m { eng := {}, cpu := s }).1

/-- The first `n` steps belong to one call of `rv_step`, which begins at `c`. -/
structure Call (env : Env) (host : Host) (c : Conf) (n : Nat) : Prop where
  begins : c.loc = .left
  goesOn : ∀ i, 0 < i → i < n → (c.stepN env host i).1.loc ≠ .left ∧ (c.stepN env host i).1.loc ≠ .dead

theorem counted_stepN (h : ∀ r b, c.eng.block r = some b → ∀ ir ∈ b.irs, ir.Counted) (n : Nat) :
    ∀ r b, (c.stepN env host n).1.eng.block r = some b → ∀ ir ∈ b.irs, ir.Counted := by
  induction n with
  | zero => exact h
  | succ n ih =>
    intro r b hb
    rw [stepN_succ] at hb
    obtain ⟨b', hsame, hold | ⟨-, hnew⟩⟩ := step_block hb
    · rw [hsame.irs]
      exact ih r b' hold
    · rw [hsame.irs]
      exact hnew.counted

theorem Reached.counted (h : Reached env host c) (n : Nat) :
    ∀ r b, (c.stepN env host n).1.eng.block r = some b → ∀ ir ∈ b.irs, ir.Counted := by
  obtain ⟨s, m, rfl⟩ := h
  refine counted_stepN (counted_stepN ?_ m) n
  rintro r b hb
  cases hb

theorem Call.spent (hsys : ∀ host s, (env.syscallHandler host s).csr.cycle = s.csr.cycle)
    (hreached : Reached env host c)
    (hcall : Call env host c (n + 1))
    (hlongest : ∀ i ≤ n + 1, ∀ r b, (c.stepN env host i).1.eng.block r = some b → countInsns b.irs ≤ longest)
    (hpos : 0 < longest) (hwrap : c.cpu.csr.cycle.toNat + host.cyclePerStep.toNat + longest < 2 ^ 64)
    (hbudget : ∀ i ≤ n, (c.stepN env host i).1.ChainsInBudget env host)
    (hmret : ∀ i ≤ n, (c.stepN env host i).1.NoMret env host) :
    Spent c.cpu.csr.cycle.toNat host.cyclePerStep.toNat longest (executed (c.stepN env host (n + 1)).2)
        (c.stepN env host (n + 1)).1 ∧
      Paced (n + 1) (executed (c.stepN env host (n + 1)).2) (c.stepN env host (n + 1)).1 := by
  induction n with
  | zero =>
    have hstep : c.stepN env host 1 =
        ({ c with target := c.cpu.csr.cycle + host.cyclePerStep.setWidth 64, loc := .head }, []) := by
      simp only [stepN, step, hcall.begins, List.append_nil]
    rw [hstep]
    refine ⟨⟨?_, rfl, by simp only [executed]; omega⟩, by simp only [Paced, executed]; omega⟩
    rw [BitVec.toNat_add, BitVec.toNat_setWidth]
    omega
  | succ n ih =>
    obtain ⟨hspent, hpaced⟩ := ih ⟨hcall.begins, fun i hi hin => hcall.goesOn i hi (by omega)⟩
      (fun i hi => hlongest i (by omega)) (fun i hi => hbudget i (by omega)) fun i hi => hmret i (by omega)
    obtain ⟨hleft, hdead⟩ := hcall.goesOn (n + 1) (Nat.succ_pos n) (Nat.lt_succ_self _)
    have hblocks : (c.stepN env host (n + 1 + 1)).1.Blocks longest := fun r b hb =>
      ⟨hlongest _ le_rfl r b hb, hreached.counted _ r b hb⟩
    rw [stepN_succ] at hblocks ⊢
    rw [executed_append]
    exact ⟨hspent.step hsys hwrap hleft hblocks (hbudget _ le_rfl) (hmret _ le_rfl), hpaced.step hspent hleft hdead⟩

end Conf

/-- `rv_step` with a budget of one cycle. -/
def oneCycle : Host := { roomyHost with cyclePerStep := 1 }

/-- About to run `j .` for the first time. -/
def spinOnce (irs : List Insn) : Conf := { spinning irs with target := 1 }

theorem spinOnce_dispatched :
    Conf.stepN (Env.bare false) oneCycle 2 { eng := {}, cpu := spin } = (spinOnce [{ opcode := .jal }], []) := by
  have h : Conf.stepN (Env.bare false) oneCycle 2 { eng := {}, cpu := spin } =
      (spinOnce (matchPattern (fun _ => true) [{ opcode := .jal }]), []) := by rfl
  rw [h, matchPattern]

theorem spinOnce_block {r : Ref} {b : Block} (h : (spinOnce [{ opcode := .jal }]).eng.block r = some b) :
    countInsns b.irs ≤ 1 := by
  by_cases hr : r = 0
  · subst hr
    cases h
    exact le_rfl
  · rw [show (spinOnce [{ opcode := .jal }]).eng.block r = none from Function.update_of_ne hr _ _] at h
    cases h

/-- `j .` about to be run at the cycle count `cycle`, linked to itself. -/
def looping (irs : List Insn) (cycle : BitVec 64) : Conf :=
  { ((spinning irs).stepN (Env.bare false) roomyHost 2).1 with loc := .run 0 0 irs cycle 0 }

theorem looping_start :
    Conf.stepN (Env.bare false) roomyHost 4 { eng := {}, cpu := spin } =
      (looping [{ opcode := .jal }] 1, [.exec { opcode := .jal } 0]) := by
  rw [Conf.stepN_add _ _ 2 2, spin_dispatched]
  rfl

theorem looping_step (cycle : BitVec 64) :
    (looping [{ opcode := .jal }] cycle).step (Env.bare false) roomyHost =
      (looping [{ opcode := .jal }] (cycle + 1), [.exec { opcode := .jal } 0, .tailCall 0 0]) := rfl

theorem looping_stepN (n : Nat) (cycle : BitVec 64) :
    (Conf.stepN (Env.bare false) roomyHost n (looping [{ opcode := .jal }] cycle)).1 =
        looping [{ opcode := .jal }] (cycle + BitVec.ofNat 64 n) ∧
      executed (Conf.stepN (Env.bare false) roomyHost n (looping [{ opcode := .jal }] cycle)).2 = n := by
  induction n with
  | zero => exact ⟨congrArg (looping _) (BitVec.add_zero cycle).symm, rfl⟩
  | succ n ih =>
    rw [Conf.stepN_succ, ih.1, looping_step, executed_append, ih.2, BitVec.add_assoc]
    refine ⟨?_, rfl⟩
    rw [BitVec.ofNat_add]
    rfl

theorem looping_block {cycle : BitVec 64} {r : Ref} {b : Block}
    (h : (looping [{ opcode := .jal }] cycle).eng.block r = some b) : b.irs = [{ opcode := .jal }] := by
  by_cases hr : r = 0
  · subst hr
    cases h
    rfl
  · have hnone : (looping [{ opcode := .jal }] cycle).eng.block r = none :=
      (Function.update_of_ne hr _ _).trans (Function.update_of_ne hr _ _)
    rw [hnone] at h
    cases h

/-- After four steps `rv_step` executes the jump for ever. -/
theorem spin_stepN (n : Nat) :
    (Conf.stepN (Env.bare false) roomyHost (4 + n) { eng := {}, cpu := spin }).1 =
        looping [{ opcode := .jal }] (1 + BitVec.ofNat 64 n) ∧
      executed (Conf.stepN (Env.bare false) roomyHost (4 + n) { eng := {}, cpu := spin }).2 = 1 + n := by
  obtain ⟨hconf, hexec⟩ := looping_stepN n 1
  rw [Conf.stepN_add, looping_start, executed_append, hexec]
  exact ⟨hconf, rfl⟩

end Rv32emu
