import Rv32emu.AddressSpace
import Rv32emu.BlockHistory

/-!
# Where the blocks of a `SYSTEM` build come from

* `SysBlock.SameCode` : two versions of a block, up to its links, its history table and lazy fusion;
* `SysBlock.TranslatedIn` : the block `block_find_or_translate` builds in a given state;
* `SysConf.step_block` : a block after a step is a block before it, or has just been translated;
* `SysConf.Cursor` : the nodes still to be run are the end of a block of the map; `Cursor.step`.
-/

namespace Rv32emu

/-- What `try_lazy_fusion` makes of an IR list, one call after the other. -/
inductive FusedLazily (env : SysEnv) : List Seg → List Seg → Prop
  | refl (segs : List Seg) : FusedLazily env segs segs
  | fuse {segs segs' : List Seg} (alloc : Word → Bool) (s : Cpu) (h : FusedLazily env segs segs') :
      FusedLazily env segs (tryLazyFusion env alloc s segs')

theorem FusedLazily.trans {env : SysEnv} {segs segs' segs'' : List Seg} (h : FusedLazily env segs segs')
    (h' : FusedLazily env segs' segs'') : FusedLazily env segs segs'' := by
  induction h' with
  | refl => exact h
  | fuse alloc s _ ih => exact ih.fuse alloc s

namespace SysBlock

structure SameCode (env : SysEnv) (b b' : SysBlock) : Prop where
  pcStart : b'.pcStart = b.pcStart
  segs : FusedLazily env b.segs b'.segs

variable {env : SysEnv} {b b' b'' : SysBlock}

theorem SameCode.refl (b : SysBlock) : b.SameCode env b := ⟨rfl, .refl _⟩

theorem SameCode.trans (h : b.SameCode env b') (h' : b'.SameCode env b'') : b.SameCode env b'' :=
  ⟨h'.pcStart.trans h.pcStart, h.segs.trans h'.segs⟩

theorem sameCode_link (b : SysBlock) (taken : Bool) (r : Ref) : b.SameCode env (b.link taken r) :=
  ⟨(b.toBlock.sameCode_link taken r).pcStart, .refl _⟩

theorem sameCode_recordBranch (b : SysBlock) (idx : BitVec 4) (pc : Word) (r : Ref) :
    b.SameCode env (b.recordBranch idx pc r) := ⟨rfl, .refl _⟩

theorem sameCode_fuseLazily (alloc : Word → Bool) (s : Cpu) (b : SysBlock) :
    b.SameCode env (b.fuseLazily env alloc s) := ⟨rfl, (FusedLazily.refl _).fuse alloc s⟩

/-- What `block_find_or_translate` builds in the state `s`, in which no block has been found. -/
def TranslatedIn (env : SysEnv) (host : SysHost) (s : Sys) (b : SysBlock) : Prop :=
  ∃ r d s', sysBlockTranslate env (sysRaise env host.fuel) host.fuel s = some (d, s') ∧
    b = .ofSegs d.pcStart d.pcEnd d.pageTerminated (SysConf.optimize env (host.fuseAlloc r) d.irs)

end SysBlock

namespace SysConf

variable {env : SysEnv} {host : SysHost} {c c' : SysConf} {r : Ref} {b' : SysBlock}

/-- The nested interpreter only discards blocks. -/
theorem block_of_settle {s : Sys} (h : (c.settle s).eng.block r = some b') : c.eng.block r = some b' := by
  rwa [settle_block (by rw [h]; rfl)] at h

theorem refreshPrev_block {e : BlockMap SysBlock} (h : c.refreshPrev env = some e) : e.block = c.eng.block := by
  unfold refreshPrev at h
  split at h
  · cases h
    rfl
  · split at h
    · cases h
    · split at h
      · cases h
        rfl
      · cases h
        exact BlockMap.blockLookupOrFind_block ..

theorem checkInterrupt_block (hc : c.checkInterrupt env host = some c') (h : c'.eng.block r = some b') :
    c.eng.block r = some b' := by
  unfold checkInterrupt at hc
  split_ifs at hc
  · cases hc
    exact h
  · obtain ⟨x, -, rfl⟩ := Option.map_eq_some_iff.mp hc
    exact block_of_settle h

/-- A block after `block_find_or_translate` is an old one, fused perhaps, or the one just translated. -/
theorem findOrTranslate_block {o : Option Ref} (hfind : c.findOrTranslate env host = some (o, c'))
    (h : c'.eng.block r = some b') :
    ∃ b, b.SameCode env b' ∧ (c.eng.block r = some b ∨ b.TranslatedIn env host c.sys) := by
  have hlook := BlockMap.blockLookupOrFind_block env.extC c.eng c.sys.cpu.PC
  unfold findOrTranslate at hfind
  rcases hfound : c.eng.blockLookupOrFind env.extC c.sys.cpu.PC with ⟨_ | q, e⟩
  · rw [hfound] at hlook hfind
    simp only at hlook hfind
    generalize he : (if mapFull e.size then { e.blockMapClear with prev := none } else e) = e' at hfind
    have hold (b : SysBlock) (hb : e'.block r = some b) : c.eng.block r = some b := by
      rw [← he] at hb
      split at hb
      · cases hb
      · exact hlook ▸ hb
    split_ifs at hfind
    · cases hfind
      exact ⟨b', .refl b', .inl (hold b' h)⟩
    · cases htr : sysBlockTranslate env (sysRaise env host.fuel) host.fuel c.sys with
      | none =>
        rw [htr] at hfind
        cases hfind
      | some x =>
        obtain ⟨d, s⟩ := x
        rw [htr] at hfind
        simp only at hfind
        split_ifs at hfind
        · cases hfind
          exact ⟨b', .refl b', .inl (hold b' (block_of_settle h))⟩
        · cases hfind
          by_cases hr : r = (settle { c with eng := e' } s).eng.fresh
          · simp only [BlockMap.blockInsert, hr, Function.update_self] at h
            cases h
            exact ⟨_, .refl _, .inr ⟨_, d, s, htr, rfl⟩⟩
          · simp only [BlockMap.blockInsert, Function.update_of_ne hr] at h
            exact ⟨b', .refl b', .inl (hold b' (block_of_settle h))⟩
  · rw [hfound] at hlook hfind
    cases hfind
    simp only at hlook h
    split at h
    · obtain ⟨b, hb, hsame⟩ := BlockMap.block_of_modify (P := SysBlock.SameCode env) SysBlock.SameCode.refl
        (SysBlock.sameCode_fuseLazily _ _) h
      exact ⟨b, hsame, .inl (hlook ▸ hb)⟩
    · exact ⟨b', .refl b', .inl (hlook ▸ h)⟩

theorem noBlock_block (h : (c.noBlock env host).eng.block r = some b') : c.eng.block r = some b' := by
  unfold noBlock at h
  split at h
  · split at h
    · exact h
    · exact block_of_settle h
  · exact h

theorem linkAndRun_block {q : Ref} (h : (c.linkAndRun q).eng.block r = some b') :
    ∃ b, c.eng.block r = some b ∧ b.SameCode env b' := by
  unfold linkAndRun at h
  split at h
  · exact ⟨b', h, .refl b'⟩
  · simp only at h
    split at h
    · exact BlockMap.block_of_modify SysBlock.SameCode.refl (fun b => b.sameCode_link _ _) h
    · exact ⟨b', h, .refl b'⟩

/-- A block that the iteration builds, behind the interrupt that it takes first. -/
def Translates (env : SysEnv) (host : SysHost) (c : SysConf) (b : SysBlock) : Prop :=
  ∃ c₁, c.checkInterrupt env host = some c₁ ∧ b.TranslatedIn env host c₁.sys

theorem dispatch_block (h : (c.dispatch env host).eng.block r = some b') :
    ∃ b, b.SameCode env b' ∧ (c.eng.block r = some b ∨ c.Translates env host b) := by
  rcases dispatch_cases env host c with hdead | ⟨c₁, e, o, c₂, hc₁, he, hfind, heq⟩
  · rw [hdead] at h
    exact ⟨b', .refl b', .inl h⟩
  · rw [heq] at h
    obtain ⟨b₂, hb₂, hsame₂⟩ : ∃ b₂, c₂.eng.block r = some b₂ ∧ b₂.SameCode env b' := by
      cases o with
      | none => exact ⟨b', noBlock_block h, .refl b'⟩
      | some q => exact linkAndRun_block h
    obtain ⟨b, hsame, hold | hnew⟩ := findOrTranslate_block hfind hb₂
    · have hb : c₁.eng.block r = some b := refreshPrev_block he ▸ hold
      exact ⟨b, hsame.trans hsame₂, .inl (checkInterrupt_block hc₁ hb)⟩
    · exact ⟨b, hsame.trans hsame₂, .inr ⟨c₁, hc₁, hnew⟩⟩

theorem handlerReturned_block (c : SysConf) (disp : Ref) (ok : Bool) :
    (c.handlerReturned disp ok).eng.block = c.eng.block := by
  unfold handlerReturned
  split <;> rfl

theorem lookupBranch_block {disp cur : Ref} {ir : Insn} {cycle : BitVec 64} {pc : Word}
    (h : (c.lookupBranch disp cur ir cycle pc).eng.block r = some b') :
    ∃ b, c.eng.block r = some b ∧ b.SameCode env b' := by
  unfold lookupBranch at h
  simp only at h
  split at h
  · rw [enter_eng] at h
    exact ⟨b', h, .refl b'⟩
  · rw [enter_eng] at h
    exact BlockMap.block_of_modify SysBlock.SameCode.refl (fun b => b.sameCode_recordBranch _ _ _) h
  · rw [handlerReturned_block] at h
    exact ⟨b', h, .refl b'⟩

theorem stepRun_block {disp cur : Ref} {rest : List Insn} {cycle : BitVec 64} {pc : Word}
    (h : (c.stepRun env host disp cur rest cycle pc).1.eng.block r = some b') :
    ∃ b, c.eng.block r = some b ∧ b.SameCode env b' := by
  unfold stepRun at h
  cases rest with
  | nil => exact ⟨b', h, .refl b'⟩
  | cons ir rest =>
    simp only at h
    split at h
    · exact ⟨b', h, .refl b'⟩
    · split at h
      · rw [handlerReturned_block] at h
        exact ⟨b', block_of_settle h, .refl b'⟩
      · rw [handlerReturned_block] at h
        exact ⟨b', block_of_settle h, .refl b'⟩
      · split at h
        all_goals exact ⟨b', block_of_settle h, .refl b'⟩
      · split at h
        · exact ⟨b', block_of_settle h, .refl b'⟩
        · rw [enter_eng] at h
          exact ⟨b', block_of_settle h, .refl b'⟩
      · split at h
        · exact ⟨b', block_of_settle h, .refl b'⟩
        · obtain ⟨b, hb, hsame⟩ := lookupBranch_block h
          exact ⟨b, block_of_settle hb, hsame⟩

/-- **A block after a step is a block before it, or has just been translated.** -/
theorem step_block (h : (c.step env host).1.eng.block r = some b') :
    ∃ b, b.SameCode env b' ∧ (c.eng.block r = some b ∨ c.loc = .head ∧ c.Translates env host b) := by
  unfold SysConf.step at h
  split at h
  · exact ⟨b', .refl b', .inl h⟩
  · rename_i hloc
    split at h
    · obtain ⟨b, hsame, hb⟩ := dispatch_block h
      exact ⟨b, hsame, hb.imp_right fun hnew => ⟨hloc, hnew⟩⟩
    · exact ⟨b', .refl b', .inl h⟩
  · obtain ⟨b, hb, hsame⟩ := stepRun_block h
    exact ⟨b, hsame, .inl hb⟩
  · exact ⟨b', .refl b', .inl h⟩

/-! ## The nodes still to be run -/

/-- The nodes to be run are the end of a block of the map. -/
def Cursor (c : SysConf) : Prop :=
  match c.loc with
  | .run _ cur rest _ _ => ∃ b, c.eng.block cur = some b ∧ rest <:+ b.irs
  | _ => True

theorem enter_cursor (c : SysConf) (disp r : Ref) (cycle : BitVec 64) (pc : Word) :
    (c.enter disp r cycle pc).Cursor := by
  unfold SysConf.enter
  split
  next b hb => exact ⟨b, hb, List.suffix_refl _⟩
  next => trivial

theorem handlerReturned_cursor (c : SysConf) (disp : Ref) (ok : Bool) : (c.handlerReturned disp ok).Cursor := by
  unfold SysConf.handlerReturned
  split <;> trivial

theorem lookupBranch_cursor (c : SysConf) (disp cur : Ref) (ir : Insn) (cycle : BitVec 64) (pc : Word) :
    (c.lookupBranch disp cur ir cycle pc).Cursor := by
  unfold SysConf.lookupBranch
  simp only
  split
  · exact enter_cursor ..
  · exact enter_cursor ..
  · exact handlerReturned_cursor _ disp true

theorem linkAndRun_cursor (c : SysConf) (r : Ref) : (c.linkAndRun r).Cursor := by
  unfold linkAndRun
  split
  next => trivial
  next b hb =>
    simp only [Cursor]
    split
    next p _ =>
      obtain ⟨b', hb', hirs⟩ := BlockMap.modify_of_block (q := p) (P := fun b b' => b'.irs = b.irs)
        (f := fun b => b.link c.sys.cpu.isBranchTaken r) (fun _ => rfl)
        (fun b => b.toBlock.link_irs c.sys.cpu.isBranchTaken r) hb
      exact ⟨b', hb', by rw [hirs]⟩
    next => exact ⟨b, hb, List.suffix_refl _⟩

theorem dispatch_cursor (env : SysEnv) (host : SysHost) (c : SysConf) : (c.dispatch env host).Cursor := by
  unfold SysConf.dispatch
  split
  · trivial
  · unfold noBlock
    split
    · split <;> trivial
    · trivial
  · exact linkAndRun_cursor _ _

theorem Cursor.step (h : c.Cursor) (env : SysEnv) (host : SysHost) : (c.step env host).1.Cursor := by
  unfold SysConf.step
  split
  · trivial
  · split
    · exact dispatch_cursor ..
    · trivial
  next disp cur rest cycle pc hloc =>
    unfold Cursor at h
    simp only [hloc] at h
    obtain ⟨b, hb, hrest⟩ := h
    unfold SysConf.stepRun
    cases rest with
    | nil => trivial
    | cons ir rest =>
      simp only
      split
      · trivial
      · rename_i ctl s _
        cases ctl with
        | signal => exact handlerReturned_cursor _ disp true
        | ret ok => exact handlerReturned_cursor _ disp ok
        | next cycle pc =>
          simp only
          split
          · trivial
          · rename_i hcur
            have hsome : ((c.settle s).eng.block cur).isSome := by
              cases hq : (c.settle s).eng.block cur with
              | none => exact absurd (by rw [hq]; rfl) hcur
              | some _ => rfl
            exact ⟨b, (congrFun (settle_block hsome) cur).trans hb, (List.suffix_cons ir rest).trans hrest⟩
        | enter r cycle pc =>
          simp only
          split
          · trivial
          · exact enter_cursor ..
        | lookup cycle pc =>
          simp only
          split
          · trivial
          · exact lookupBranch_cursor ..
  next hloc =>
    unfold Cursor
    rw [hloc]
    trivial

theorem cursor_run (h : c.Cursor) (env : SysEnv) (host : SysHost) (n : Nat) : (c.run env host n).Cursor := by
  induction n with
  | zero => exact h
  | succ n ih => exact ih.step env host

end SysConf

end Rv32emu
