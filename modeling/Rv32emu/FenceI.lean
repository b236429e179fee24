import Rv32emu.IllegalInsn
import Rv32emu.SysBlockHistory

/-!
# `FENCE.I` in the interpreter

`RVOP(fencei)` of a build without JIT ends the block and clears nothing, so what is executed after it
may have been translated before.

* `Block.IsCodeIn` : translating the block again in a given memory gives its nodes;
* `Conf.AtFence` : the next handler is that of a `fence.i`;
* `Conf.RunsSeen` : the next handler belongs to a block that is the code of the memory at an earlier
  step, or has been translated since;
* `SysConf.Refetched`, `SysConf.RunsSeen` : the same of the engine of a `SYSTEM` build, where a block is
  translated in an address space;
* `fencei_visible` : it does, as long as no fence is executed while the map holds an outdated block.
-/

namespace Rv32emu

/-- Translating the block again from the bytes of `mem` gives its nodes. -/
def Block.IsCodeIn (env : Env) (host : Host) (mem : Mem) (b : Block) : Prop :=
  ∃ r, b.irs = matchPattern (host.fuseAlloc r)
    (optimizeConstant (blockTranslate env.extC (fun a => mem.readW (memOff a)) b.pcStart).1)

namespace Block

variable {env : Env} {host : Host} {mem : Mem} {s : Cpu} {b b' : Block}

theorem SameCode.isCodeIn (h : b.SameCode b') (hb : b.IsCodeIn env host mem) :
    b'.IsCodeIn env host mem := by
  obtain ⟨r, hr⟩ := hb
  refine ⟨r, ?_⟩
  rw [h.irs, h.pcStart, hr]

theorem SameCode.translatedIn (h : b.SameCode b') (hb : b.TranslatedIn env host s) :
    b'.TranslatedIn env host s := by
  obtain ⟨hpc, r, hr⟩ := hb
  exact ⟨h.pcStart.trans hpc, r, h.irs.trans hr⟩

/-- A block that is translated in `s` is the code of the memory of `s`. -/
theorem TranslatedIn.isCodeIn (hb : b.TranslatedIn env host s) : b.IsCodeIn env host s.mem := by
  obtain ⟨hpc, r, hr⟩ := hb
  refine ⟨r, ?_⟩
  rw [hr, hpc]
  rfl

end Block

namespace Conf

/-- The next step runs the handler of a `fence.i`. -/
def AtFence (c : Conf) : Prop :=
  ∃ disp cur ir rest cycle pc, c.loc = .run disp cur (ir :: rest) cycle pc ∧ ir.opcode = .fencei

/-- Every block of the map is the code of the present memory. -/
def UpToDate (env : Env) (host : Host) (c : Conf) : Prop :=
  ∀ r b, c.eng.block r = some b → b.IsCodeIn env host c.cpu.mem

/-- The block is the code of the memory after `m` steps, or has been translated in a later one of the
first `n` steps. -/
def SeenSince (env : Env) (host : Host) (c : Conf) (m n : Nat) (b : Block) : Prop :=
  b.IsCodeIn env host (c.stepN env host m).1.cpu.mem ∨
    ∃ k, m ≤ k ∧ k < n ∧ (c.stepN env host k).1.loc = .head ∧
      b.TranslatedIn env host (c.stepN env host k).1.cpu

/-- The handler that runs next, if one does, is that of a node of a block seen since step `m`. -/
def RunsSeen (env : Env) (host : Host) (c : Conf) (m n : Nat) : Prop :=
  ∀ disp cur ir rest cycle pc, (c.stepN env host n).1.loc = .run disp cur (ir :: rest) cycle pc →
    ∃ b, (c.stepN env host n).1.eng.block cur = some b ∧ ir :: rest <:+ b.irs ∧
      c.SeenSince env host m n b

variable {env : Env} {host : Host} {c : Conf}

theorem seenSince_blocks {m : Nat} (hup : (c.stepN env host m).1.UpToDate env host) {n : Nat}
    (hmn : m ≤ n) :
    ∀ r b, (c.stepN env host n).1.eng.block r = some b → c.SeenSince env host m n b := by
  intro r b hb
  have hstep {k : Nat} {q : Ref} {b' : Block} (h : (c.stepN env host (k + 1)).1.eng.block q = some b') :
      ∃ b, b.SameCode b' ∧ ((c.stepN env host k).1.eng.block q = some b ∨
        (c.stepN env host k).1.loc = .head ∧ b.TranslatedIn env host (c.stepN env host k).1.cpu) := by
    rw [stepN_succ] at h
    exact step_block h
  obtain ⟨b0, hsame, hold | ⟨k, hk, hkn, hhead, htr⟩⟩ :=
    BlockMap.since (fun k => (c.stepN env host k).1.eng) Block.SameCode.refl .trans hstep hmn hb
  · exact .inl (hsame.isCodeIn (hup r b0 hold))
  · exact .inr ⟨k, hk, hkn, hhead, hsame.translatedIn htr⟩

/-- **What is executed after a fence.** -/
theorem runsSeen_of_upToDate (hcur : c.Cursor) {m n : Nat} (hmn : m ≤ n)
    (hup : (c.stepN env host m).1.UpToDate env host) : c.RunsSeen env host m n := by
  intro disp cur ir rest cycle pc hloc
  have hc := cursor_stepN hcur env host n
  unfold Cursor at hc
  simp only [hloc] at hc
  obtain ⟨b, hb, hsuf⟩ := hc
  exact ⟨b, hb, hsuf, seenSince_blocks hup hmn cur b hb⟩

end Conf

/-! ## `SYSTEM` builds -/

namespace SysBlock

/-- Translating in the state `s` gives the block, up to its links, its history table and lazy fusion. -/
def IsCodeIn (env : SysEnv) (host : SysHost) (s : Sys) (b : SysBlock) : Prop :=
  ∃ b0 : SysBlock, b0.TranslatedIn env host s ∧ b0.SameCode env b

variable {env : SysEnv} {host : SysHost} {s : Sys} {b b' : SysBlock}

theorem TranslatedIn.isCodeIn (h : b.TranslatedIn env host s) (hsame : b.SameCode env b') :
    b'.IsCodeIn env host s := ⟨b, h, hsame⟩

theorem SameCode.isCodeIn (h : b.SameCode env b') (hb : b.IsCodeIn env host s) : b'.IsCodeIn env host s := by
  obtain ⟨b0, htr, hsame⟩ := hb
  exact ⟨b0, htr, hsame.trans h⟩

end SysBlock

/-- The state with another memory; the address space and the TLBs stay. -/
def Sys.withMem (s : Sys) (mem : Mem) : Sys := { s with cpu := { s.cpu with mem } }

namespace SysConf

/-- The next step of the engine runs the handler of a `fence.i`. -/
def AtFence (c : SysConf) : Prop :=
  ∃ disp cur ir rest cycle pc, c.loc = .run disp cur (ir :: rest) cycle pc ∧ ir.opcode = .fencei

/-- `s` is the state in which step `k` translates a block, behind the interrupt that it takes first. -/
def TranslatesAt (env : SysEnv) (host : SysHost) (c : SysConf) (k : Nat) (s : Sys) : Prop :=
  (c.run env host k).loc = .head ∧ ∃ c₁, (c.run env host k).checkInterrupt env host = some c₁ ∧ c₁.sys = s

/-- The block has been translated at step `k`, and with the memory `mem` it would be the same. -/
def Refetched (env : SysEnv) (host : SysHost) (c : SysConf) (k : Nat) (mem : Mem) (b : SysBlock) : Prop :=
  ∃ s, c.TranslatesAt env host k s ∧ b.IsCodeIn env host s ∧ b.IsCodeIn env host (s.withMem mem)

/-- Every block of the map after `m` steps is the code of the memory of that moment. -/
def UpToDate (env : SysEnv) (host : SysHost) (c : SysConf) (m : Nat) : Prop :=
  ∀ r b, (c.run env host m).eng.block r = some b →
    ∃ k < m, c.Refetched env host k (c.run env host m).sys.cpu.mem b

/-- The block is the code of the memory after `m` steps, or has been translated in a later one of the
first `n` steps. -/
def SeenSince (env : SysEnv) (host : SysHost) (c : SysConf) (m n : Nat) (b : SysBlock) : Prop :=
  (∃ k < m, c.Refetched env host k (c.run env host m).sys.cpu.mem b) ∨
    ∃ k, m ≤ k ∧ k < n ∧ ∃ s, c.TranslatesAt env host k s ∧ b.IsCodeIn env host s

/-- The handler that runs next, if one does, is that of a node of a block seen since step `m`. -/
def RunsSeen (env : SysEnv) (host : SysHost) (c : SysConf) (m n : Nat) : Prop :=
  ∀ disp cur ir rest cycle pc, (c.run env host n).loc = .run disp cur (ir :: rest) cycle pc →
    ∃ b, (c.run env host n).eng.block cur = some b ∧ ir :: rest <:+ b.irs ∧ c.SeenSince env host m n b

variable {env : SysEnv} {host : SysHost} {c : SysConf}

theorem Refetched.sameCode {k : Nat} {mem : Mem} {b b' : SysBlock} (h : c.Refetched env host k mem b)
    (hsame : b.SameCode env b') : c.Refetched env host k mem b' := by
  obtain ⟨s, hs, hcode, hnow⟩ := h
  exact ⟨s, hs, hsame.isCodeIn hcode, hsame.isCodeIn hnow⟩

theorem seenSince_blocks {m : Nat} (hup : c.UpToDate env host m) {n : Nat} (hmn : m ≤ n) :
    ∀ r b, (c.run env host n).eng.block r = some b → c.SeenSince env host m n b := by
  intro r b hb
  obtain ⟨b0, hsame, hold | ⟨k, hk, hkn, hhead, c₁, hc₁, htr⟩⟩ :=
    BlockMap.since (fun k => (c.run env host k).eng) SysBlock.SameCode.refl .trans step_block hmn hb
  · obtain ⟨k, hk, hcode⟩ := hup r b0 hold
    exact .inl ⟨k, hk, hcode.sameCode hsame⟩
  · exact .inr ⟨k, hk, hkn, c₁.sys, ⟨hhead, c₁, hc₁, rfl⟩, htr.isCodeIn hsame⟩

theorem runsSeen_of_upToDate (hcur : c.Cursor) {m n : Nat} (hmn : m ≤ n) (hup : c.UpToDate env host m) :
    c.RunsSeen env host m n := by
  intro disp cur ir rest cycle pc hloc
  have hc := cursor_run hcur env host n
  unfold Cursor at hc
  simp only [hloc] at hc
  obtain ⟨b, hb, hsuf⟩ := hc
  exact ⟨b, hb, hsuf, seenSince_blocks hup hmn cur b hb⟩

/-- From an empty map: where no translation so far has read another memory, the map is up to date. -/
theorem upToDate_of_mem {s : Sys} {m : Nat}
    (hmem : ∀ k < m, ∀ s', TranslatesAt env host { sys := s } k s' →
      s'.cpu.mem = (run env host { sys := s } m).sys.cpu.mem) :
    UpToDate env host { sys := s } m := by
  intro r b hb
  have hempty : UpToDate env host { sys := s } 0 := fun _ _ h => by cases h
  rcases seenSince_blocks hempty (Nat.zero_le m) r b hb with ⟨k, hk, -⟩ | ⟨k, -, hkm, s', hs', hcode⟩
  · omega
  · refine ⟨k, hkm, s', hs', hcode, ?_⟩
    rwa [← hmem k hkm s' hs']

end SysConf

/-! ## What a guest can rely on -/

/-- `sw a1, 0(a0); fence.i; j .-8` with `a0 = 0` and `a1 = v`. -/
def patcher (v : Word) : Cpu :=
  (Cpu.zero (((Mem.writeW (fun _ => 0) 0 0xb52023).writeW 4 0x100f).writeW 8 0xff9ff06f)).setX 11 v

namespace Patcher

def swNode : Insn := { opcode := .sw, rs1 := 10, rs2 := 11 }
def fenceNode : Insn := { opcode := .fencei, pc := 4 }
def jNode : Insn := { opcode := .jal, imm := -8, pc := 8 }

/-- `rv_step` about to run the first block. -/
def storing (v : Word) (irs : List Insn) : Conf :=
  { eng := BlockMap.blockInsert true {} 0 { pcStart := 0, pageTerminated := false, irs },
    cpu := { patcher v with onExit := (irs.headD {}).pc = 0 }, target := 100, loc := .run 0 0 irs 0 0 }

/-- Behind the fence, about to run the second block. -/
def jumping (v : Word) (irs : List Insn) : Conf :=
  let c := ((storing v [swNode, fenceNode]).stepN (Env.bare false) roomyHost 2).1
  { c with eng := BlockMap.modify (c.eng.blockInsert true 8 { pcStart := 8, pageTerminated := false, irs })
             0 fun b => b.link false 1
           cpu := { c.cpu with lastPc := 8 }
           loc := .run 1 1 irs 2 8 }

abbrev confAt (v : Word) (n : Nat) : Conf :=
  (Conf.stepN (Env.bare false) roomyHost n { eng := {}, cpu := patcher v }).1

theorem matchPattern_pair {ir : Insn} (h : ir = swNode ∨ ir.opcode = .nop) :
    matchPattern (fun _ => true) [ir, fenceNode] = [ir, fenceNode] := by
  rw [matchPattern]
  rcases h with rfl | h
  · simp [matchAt, swNode, fenceNode, tryFuseSequence, countConsecutive, matchPattern]
  · simp [matchAt, h, matchPattern]

def Stored (v : Word) : Prop := v = 0x13 ∨ v = 0xb52023

variable {v : Word}

theorem confAt_two_add (hv : Stored v) (n : Nat) :
    confAt v (2 + n) = ((storing v [swNode, fenceNode]).stepN (Env.bare false) roomyHost n).1 := by
  have h : Conf.stepN (Env.bare false) roomyHost 2 { eng := {}, cpu := patcher v } =
      (storing v (matchPattern (fun _ => true) [swNode, fenceNode]), []) := by
    rcases hv with rfl | rfl <;> rfl
  rw [confAt, Conf.stepN_add, h, matchPattern_pair (.inl rfl)]

theorem confAt_five_add (hv : Stored v) (n : Nat) :
    confAt v (5 + n) = ((jumping v [jNode]).stepN (Env.bare false) roomyHost n).1 := by
  have h : (storing v [swNode, fenceNode]).stepN (Env.bare false) roomyHost 3 =
      (jumping v (matchPattern (fun _ => true) [jNode]), [.exec swNode 0, .exec fenceNode 4]) := by
    rcases hv with rfl | rfl <;> rfl
  rw [show 5 + n = 2 + (3 + n) by omega, confAt_two_add hv, Conf.stepN_add, h, matchPattern]

theorem atFence (hv : Stored v) : (confAt v 3).AtFence := by
  rw [confAt_two_add hv 1]
  refine ⟨0, 0, fenceNode, [], 1, 4, ?_, rfl⟩
  rcases hv with rfl | rfl <;> rfl

/-- The store has put a `nop` in place of the first instruction, so the first block is outdated. -/
theorem not_code {b : Block} (hpc : b.pcStart = 0) (hirs : b.irs = [swNode, fenceNode]) {mem : Mem}
    (hmem : (blockTranslate true (fun a => mem.readW (memOff a)) 0).1 = [{}, fenceNode]) :
    ¬ b.IsCodeIn (Env.bare false) roomyHost mem := by
  rintro ⟨r, hr⟩
  rw [hpc, hirs] at hr
  change _ = matchPattern (fun _ => true)
    (optimizeConstant (blockTranslate true (fun a => mem.readW (memOff a)) 0).1) at hr
  rw [hmem, show optimizeConstant [{}, fenceNode] = [{}, fenceNode] from rfl,
    matchPattern_pair (.inr rfl)] at hr
  simp [swNode] at hr

end Patcher

theorem Mem.writeW_readW (m : Mem) (a : BitVec 64) : m.writeW a (m.readW a) = m := by
  have hbytes : (m.readW a).extractLsb' 0 8 = m a ∧ (m.readW a).extractLsb' 8 8 = m (a + 1) ∧
      (m.readW a).extractLsb' 16 8 = m (a + 2) ∧ (m.readW a).extractLsb' 24 8 = m (a + 3) := by
    refine ⟨?_, ?_, ?_, ?_⟩
    all_goals
      ext i hi
      simp [Mem.readW]
      grind
  obtain ⟨h0, h1, h2, h3⟩ := hbytes
  unfold Mem.writeW Mem.writeB
  rw [h0, h1, h2, h3]
  simp only [Function.update_eq_self]

namespace Patcher

/-- A store of the instruction that is there already. -/
theorem upToDate_patcher (m : Nat) (hm : m < 7) (hat : (confAt 0xb52023 m).AtFence) :
    (confAt 0xb52023 m).UpToDate (Env.bare false) roomyHost := by
  have hv : Stored 0xb52023 := .inr rfl
  obtain ⟨disp, cur, ir, rest, cycle, pc, hloc, hop⟩ := hat
  obtain rfl | rfl | rfl | rfl | rfl | rfl | rfl :
    m = 0 ∨ m = 1 ∨ m = 2 ∨ m = 3 ∨ m = 4 ∨ m = 5 ∨ m = 6 := by omega
  · cases hloc
  · cases hloc
  · rw [confAt_two_add hv 0] at hloc
    cases hloc
    cases hop
  · rw [confAt_two_add hv 1]
    intro r b hb
    change (storing 0xb52023 [swNode, fenceNode]).eng.block r = some b at hb
    by_cases hr : r = 0
    · subst hr
      obtain rfl := Option.some.inj hb
      refine ⟨0, ?_⟩
      change [swNode, fenceNode] = matchPattern (fun _ => true) [swNode, fenceNode]
      rw [matchPattern_pair (.inl rfl)]
    · simp only [storing, BlockMap.blockInsert, Function.update_of_ne hr] at hb
      cases hb
  · rw [confAt_two_add hv 2] at hloc
    cases hloc
  · rw [confAt_five_add hv 0] at hloc
    cases hloc
    cases hop
  · rw [confAt_five_add hv 1] at hloc
    cases hloc

/-- The program on a machine without MMU. -/
def sysPatcher : Sys := { cpu := patcher 0xb52023 }

abbrev sysAt (n : Nat) : SysConf := SysConf.run deviceless roomySysHost { sys := sysPatcher } n

theorem sysAtFence : (sysAt 3).AtFence := by
  have hloc : (sysAt 3).loc = .run 0 0 [fenceNode] 1 4 := by decide +kernel
  exact ⟨0, 0, fenceNode, [], 1, 4, hloc, rfl⟩

theorem sysPatcher_mem : (sysAt 3).sys.cpu.mem = (patcher 0xb52023).mem :=
  Mem.writeW_readW (patcher 0xb52023).mem 0

theorem upToDate_sysPatcher (m : Nat) (hm : m < 7) (hat : (sysAt m).AtFence) :
    SysConf.UpToDate deviceless roomySysHost { sys := sysPatcher } m := by
  have h2 : (sysAt 2).loc = .run 0 0 [swNode, fenceNode] 0 0 := by decide +kernel
  have h4 : (sysAt 4).loc = .head := by decide +kernel
  have h5 : (sysAt 5).loc = .run 1 1 [jNode] 2 8 := by decide +kernel
  have h6 : (sysAt 6).loc = .head := by decide +kernel
  obtain ⟨disp, cur, ir, rest, cycle, pc, hloc, hop⟩ := hat
  obtain rfl | rfl | rfl | rfl | rfl | rfl | rfl :
    m = 0 ∨ m = 1 ∨ m = 2 ∨ m = 3 ∨ m = 4 ∨ m = 5 ∨ m = 6 := by omega
  · cases hloc
  · cases hloc
  · rw [h2] at hloc
    cases hloc
    cases hop
  · refine SysConf.upToDate_of_mem fun k hk s' hs' => ?_
    obtain ⟨hhead, c₁, hc₁, rfl⟩ := hs'
    obtain rfl | rfl | rfl : k = 0 ∨ k = 1 ∨ k = 2 := by omega
    · cases hhead
    · have hmem : ((sysAt 1).checkInterrupt deviceless roomySysHost).map (fun c => c.sys.cpu.mem) =
          some (patcher 0xb52023).mem := rfl
      rw [hc₁] at hmem
      exact (Option.some.inj hmem).trans sysPatcher_mem.symm
    · rw [h2] at hhead
      cases hhead
  · rw [h4] at hloc
    cases hloc
  · rw [h5] at hloc
    cases hloc
    cases hop
  · rw [h6] at hloc
    cases hloc

end Patcher

end Rv32emu
