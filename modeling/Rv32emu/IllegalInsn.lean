import Rv32emu.Engine

/-!
# Illegal instructions in the block engine

`block_translate` decodes ahead of execution and raises the illegal-instruction trap when it meets a
rejected word, with `rv->PC` still at the start of the block; the truncated block is then run at the
trap vector. If the block is empty `rv_step` halts the machine. So no execution that meets a rejected
word is like that of `rv_step_debug` (`not_preciseIllegal`).
-/

namespace Rv32emu

/-! ## Where a block ends -/

theorem translateLoop_pcEnd (extC : Bool) (fetch : Word → Word) (pEnd : Word) (n : Nat) (pc : Word) :
    ∃ k, (translateLoop extC fetch pEnd n pc).2.1 = pc + BitVec.ofNat 32 k ∧
      2 * (translateLoop extC fetch pEnd n pc).1.length ≤ k ∧ k ≤ 4 * n := by
  induction n generalizing pc with
  | zero => exact ⟨0, by simp [translateLoop], by simp [translateLoop], le_refl 0⟩
  | succ n ih =>
    have hlen : ∃ m, insnLen (fetch pc) = BitVec.ofNat 32 m ∧ 2 ≤ m ∧ m ≤ 4 := by
      refine ⟨(insnLen (fetch pc)).toNat, by simp, ?_⟩
      rcases insnLen_toNat (fetch pc) with h | h <;> omega
    obtain ⟨m, hm, hm2, hm4⟩ := hlen
    unfold translateLoop
    simp only
    split
    · exact ⟨0, by simp, by simp, by omega⟩
    · split
      · exact ⟨0, by simp, by simp, by omega⟩
      · exact ⟨0, by simp, by simp, by omega⟩
      · split_ifs with hb hp
        · exact ⟨m, by rw [hm], by simpa using hm2, by omega⟩
        · exact ⟨m, by rw [hm], by simpa using hm2, by omega⟩
        · obtain ⟨k, hk, hk2, hk4⟩ := ih (pc + insnLen (fetch pc))
          refine ⟨m + k, ?_, ?_, by omega⟩
          · simp only [hk]
            rw [hm, BitVec.ofNat_add, BitVec.add_assoc]
          · simp only [List.length_cons]
            omega

/-- A block with a node in it does not end where it starts. -/
theorem blockTranslate_pcEnd_ne {extC : Bool} {fetch : Word → Word} {pc addr : Word} {irs : List Insn}
    {stop : Stop} (h : blockTranslate extC fetch pc = (irs, addr, stop)) (hne : irs ≠ []) : addr ≠ pc := by
  obtain ⟨k, hk, hk2, hk4⟩ := translateLoop_pcEnd extC fetch (pageEnd pc) 2048 pc
  rw [show translateLoop extC fetch (pageEnd pc) 2048 pc = (irs, addr, stop) from h] at hk hk2
  have hpos : 0 < irs.length := List.length_pos_iff.mpr hne
  intro heq
  have h0 : BitVec.ofNat 32 k = 0 := by
    have := congrArg (· - pc) (hk.symm.trans heq)
    simpa [BitVec.add_comm pc, BitVec.add_sub_cancel] using this
  have := congrArg BitVec.toNat h0
  simp only [BitVec.toNat_ofNat, BitVec.reduceToNat] at this
  simp only at hk2
  omega

/-! ## Precision -/

/-- `rv_step` is in a handler. -/
def Loc.isRun : Loc → Bool
  | .run .. => true
  | _ => false

/-- The `rv->PC` of the illegal-instruction traps among some events. -/
def illegalEpcs (events : List Event) : List Word :=
  events.filterMap fun
    | .illegal epc => some epc
    | _ => none

/-- The machine without the bookkeeping of the block linker. -/
def Cpu.noLinker (s : Cpu) : Cpu := { s with isBranchTaken := false, lastPc := 0 }

/-- One iteration of `rv_step`, whose block runs through the nodes `irs` into a rejected word at
`addr`, is like `rv_step_debug`: `n` steps lead to the end of the iteration, on the way one
illegal-instruction trap is taken at `addr` and every node runs at its own address, and the machine is
left as by the calls of `rv_step_debug` for `irs` and the rejected word. -/
structure PreciseIteration (env : Env) (host : Host) (c : Conf) (irs : List Insn) (addr : Word) (n : Nat) :
    Prop where
  inside : ∀ k, 0 < k → k < n → (c.stepN env host k).1.loc.isRun = true
  ended : 0 < n ∧ (c.stepN env host n).1.loc.isRun = false
  epc : illegalEpcs (c.stepN env host n).2 = [addr]
  nodes : ∀ ir pc, .exec ir pc ∈ (c.stepN env host n).2 → pc = ir.pc
  state : (c.stepN env host n).1.cpu.noLinker =
    ((rvStepDebug env)^[irs.length + 1] c.cpu).noLinker

def PreciseIllegal (env : Env) (host : Host) (c : Conf) (irs : List Insn) (addr : Word) : Prop :=
  ∃ n, PreciseIteration env host c irs addr n

/-! ## The dispatch of a block cut by a rejected word -/

theorem vectorTo_frame (base mode cause : Word) (s : Cpu) :
    (vectorTo base mode cause s).halt = s.halt ∧ (vectorTo base mode cause s).aborted = s.aborted := by
  unfold vectorTo
  split_ifs <;> exact ⟨rfl, rfl⟩

/-- Taking an illegal-instruction trap neither halts nor ends the process. -/
theorem raise_illegal_frame (env : Env) (insn : Word) (s : Cpu) :
    (raise env .illegalInsn insn s).halt = s.halt ∧
      (raise env .illegalInsn insn s).aborted = s.aborted := by
  have hset : (setCauseAndTval .illegalInsn insn s).halt = s.halt ∧
      (setCauseAndTval .illegalInsn insn s).aborted = s.aborted := by
    unfold setCauseAndTval
    split <;> exact ⟨rfl, rfl⟩
  have hmcause : (setCauseAndTval .illegalInsn insn s).isUOrSMode = false →
      (setCauseAndTval .illegalInsn insn s).csr.mcause = Cause.illegalInsn.code := by
    unfold setCauseAndTval
    split
    · rename_i h
      intro h'
      exact absurd (h.symm.trans h') (by decide)
    · intro
      rfl
  rw [← hset.1, ← hset.2]
  unfold raise
  generalize setCauseAndTval .illegalInsn insn s = s1 at hmcause ⊢
  unfold trapHandler
  split_ifs with hmode hvec
  · exact vectorTo_frame ..
  · have hM : (enterMachine s1).csr.mcause = Cause.illegalInsn.code := hmcause (by simpa using hmode)
    rw [trapDefaultHandler, hM, if_neg (by decide)]
    exact ⟨rfl, rfl⟩
  · exact vectorTo_frame ..

theorem blockTranslate_nil_illegal {extC : Bool} {fetch : Word → Word} {pc addr insn : Word}
    (h : blockTranslate extC fetch pc = ([], addr, .illegal insn)) :
    fetch pc = insn ∧ insn ≠ 0 ∧ ∃ ir, rvDecode extC insn = .illegal ir := by
  unfold blockTranslate translateLoop at h
  simp only at h
  split at h
  · cases h
  · rename_i hne
    split at h
    · cases h
    · rename_i hdec
      cases h
      exact ⟨rfl, hne, _, hdec⟩
    · split_ifs at h <;> cases h

/-- What the dispatch of such a block does: either the allocation fails and nothing is run, or the
trap is raised at the start of the block, and nothing is run if the block is empty. -/
theorem dispatch_illegal (env : Env) (host : Host) {c : Conf} {irs : List Insn} {addr insn : Word}
    (hlive : c.cpu.aborted = false)
    (hmiss : ((c.refreshPrev env).blockLookupOrFind env.extC c.cpu.PC).1 = none)
    (ht : blockTranslate env.extC c.cpu.ifetch c.cpu.PC = (irs, addr, .illegal insn)) :
    ((c.dispatch env host).2 = [] ∧ (c.dispatch env host).1.loc.isRun = false) ∨
    ((c.dispatch env host).2 = [.illegal c.cpu.PC] ∧
      (irs = [] → (c.dispatch env host).1.loc.isRun = false ∧ (c.dispatch env host).1.cpu.halt = true)) := by
  have hframe := raise_illegal_frame env insn { c.cpu with compressed := isCompressed insn }
  generalize hs1 : raise env .illegalInsn insn { c.cpu with compressed := isCompressed insn } = s1 at hframe
  obtain ⟨-, hab⟩ := hframe
  rw [show ({ c.cpu with compressed := isCompressed insn } : Cpu).aborted = false from hlive] at hab
  obtain ⟨e1, he1⟩ : ∃ e1, (c.refreshPrev env).blockLookupOrFind env.extC c.cpu.PC = (none, e1) :=
    ⟨_, Prod.ext hmiss rfl⟩
  have hfind : ∃ e, blockFindOrTranslate env host (c.refreshPrev env) c.cpu =
      if !host.blockAlloc e.fresh then (none, e, c.cpu, [])
      else if irs ≠ [] ∧ s1.X regZero ≠ 0 then
        (none, e, { s1 with aborted := true }, [.illegal c.cpu.PC])
      else if irs = [] then (none, e, s1, [.illegal c.cpu.PC])
      else (some e.fresh, e.blockInsert env.extC c.cpu.PC
        { pcStart := c.cpu.PC, pageTerminated := false,
          irs := matchPattern (host.fuseAlloc e.fresh) (optimizeConstant irs) }, s1,
        [.illegal c.cpu.PC]) := by
    refine ⟨if mapFull e1.size then { e1.blockMapClear with prev := none } else e1, ?_⟩
    simp only [blockFindOrTranslate, he1, ht, raiseIllegal, hs1, reduceCtorEq, false_or, decide_false]
  obtain ⟨e, hfind⟩ := hfind
  unfold Conf.dispatch
  rw [hfind]
  by_cases halloc : host.blockAlloc e.fresh = true
  · simp only [halloc, Bool.not_true, Bool.false_eq_true, if_false]
    right
    by_cases hnil : irs = []
    · subst hnil
      simp [hab, Loc.isRun]
    · simp only [hnil, ne_eq, not_false_eq_true, true_and, if_false, false_implies, and_true]
      by_cases hx : s1.X regZero = 0
      · simp only [hx, not_true, if_false]
        split <;> rfl
      · simp only [hx, not_false_eq_true, if_true]
  · left
    simp [halloc, hlive, Loc.isRun]

/-- An iteration that does not get into a handler ends with its first step. -/
theorem PreciseIteration.eq_one {env : Env} {host : Host} {c : Conf} {irs : List Insn} {addr : Word}
    {n : Nat} (h : PreciseIteration env host c irs addr n)
    (hstop : (c.step env host).1.loc.isRun = false) : n = 1 := by
  by_contra hn
  have hin := h.inside 1 Nat.one_pos (by have := h.ended.1; omega)
  rw [show (c.stepN env host 1).1 = (c.step env host).1 from rfl, hstop] at hin
  cases hin

/-- **No execution that meets a rejected word is precise.** `rv_step` is at the start of an iteration,
there is no translated block at `rv->PC`, and the words from there on run into a rejected one. -/
theorem not_preciseIllegal (env : Env) (host : Host) {c : Conf} (hloc : c.loc = .head)
    (hgo : c.cpu.csr.cycle < c.target ∧ c.cpu.halt = false) (hlive : c.cpu.aborted = false)
    (hmiss : ((c.refreshPrev env).blockLookupOrFind env.extC c.cpu.PC).1 = none) {irs : List Insn}
    {addr insn : Word}
    (ht : blockTranslate env.extC c.cpu.ifetch c.cpu.PC = (irs, addr, .illegal insn)) :
    ¬ PreciseIllegal env host c irs addr := by
  rintro ⟨n, h⟩
  have hstep : c.step env host = c.dispatch env host := by
    simp only [Conf.step, hloc, if_pos hgo]
  rcases dispatch_illegal env host hlive hmiss ht with ⟨hev, hstop⟩ | ⟨hev, hstop⟩
  · have hn := h.eq_one (by rw [hstep]; exact hstop)
    subst hn
    have hepc := h.epc
    simp only [Conf.stepN, hstep, hev] at hepc
    cases hepc
  · by_cases hnil : irs = []
    · -- The trap is right, but the machine is halted.
      obtain ⟨hrun, hhalt⟩ := hstop hnil
      have hn := h.eq_one (by rw [hstep]; exact hrun)
      subst hn hnil
      obtain ⟨hfetch, hne, _, hdec⟩ := blockTranslate_nil_illegal ht
      have hstate := congrArg Cpu.halt h.state
      have hdebug : (rvStepDebug env c.cpu).halt = false := by
        have hfetch' : Cpu.ifetch { c.cpu with onExit := c.cpu.onExit || c.cpu.PC = env.exitAddr }
            c.cpu.PC = insn := hfetch
        simp only [rvStepDebug, hfetch', if_neg hne, hdec]
        rw [(raise_illegal_frame ..).1]
        exact hgo.2
      have hstop' : (c.stepN env host 1).1.cpu.halt = true := by
        simp only [Conf.stepN, hstep]
        exact hhalt
      have : true = false := hstop'.symm.trans (hstate.trans hdebug)
      cases this
    · -- The trap is taken at the start of the block.
      have hepc := h.epc
      obtain ⟨m, rfl⟩ : ∃ m, n = m + 1 := ⟨n - 1, by have := h.ended.1; omega⟩
      simp only [Conf.stepN, hstep, hev] at hepc
      have : c.cpu.PC = addr := (List.cons_eq_cons.mp hepc).1
      exact blockTranslate_pcEnd_ne ht hnil this.symm

def roomyHost : Host := ⟨fun _ => true, fun _ _ => true, 100⟩

/-- The words `x` and `y` at address 0, about to be translated. -/
def twoWords (x y : Word) : Conf :=
  { eng := {}, cpu := Cpu.zero (Mem.writeW (Mem.writeW (fun _ => 0) 0 x) 4 y), target := 100,
    loc := .head }

/-- `addi a0, x0, 1` and a rejected word: the trap is taken at 0, not at 4. -/
theorem not_preciseIllegal_addi :
    blockTranslate true (twoWords 0x00100513 0x7f).cpu.ifetch 0 =
        ([{ opcode := .addi, rd := 10, imm := 1 }], 4, .illegal 0x7f) ∧
      ¬ PreciseIllegal (Env.bare false) roomyHost (twoWords 0x00100513 0x7f)
        [{ opcode := .addi, rd := 10, imm := 1 }] 4 := by
  refine ⟨by rfl, ?_⟩
  rintro ⟨n, h⟩
  obtain ⟨m, rfl⟩ : ∃ m, n = m + 1 := ⟨n - 1, by have := h.ended.1; omega⟩
  have hev : ((twoWords 0x00100513 0x7f).step (Env.bare false) roomyHost).2 = [.illegal 0] := by rfl
  have hepc := h.epc
  simp only [Conf.stepN, hev] at hepc
  exact absurd (List.cons_eq_cons.mp hepc).1 (by decide)

/-- So it is behind `lui t0, 1`. -/
theorem not_preciseIllegal_lui :
    ¬ PreciseIllegal (Env.bare false) roomyHost (twoWords 0x12b7 0x7f) [{ opcode := .lui, rd := 5, imm := 0x1000 }] 4 :=
  not_preciseIllegal (Env.bare false) roomyHost rfl ⟨by decide, rfl⟩ rfl rfl
    (show blockTranslate true (twoWords 0x12b7 0x7f).cpu.ifetch 0 =
      ([{ opcode := .lui, rd := 5, imm := 0x1000 }], 4, .illegal 0x7f) from by rfl)

end Rv32emu
