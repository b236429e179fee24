import Rv32emu.Engine

/-!
# Where the blocks of a run come from

The engine changes the nodes of a block never: it links blocks, fills their branch history tables,
and drops them all at once when the map is full. So every block of a run has been translated at some
iteration, from the memory of that moment.

* `Block.SameCode` : two versions of a block with the same nodes;
* `Block.TranslatedIn` : the block `block_translate` builds in a given state;
* `Conf.step_block` : a block after a step is a block before it, or has just been translated;
* `Conf.Cursor` : the nodes still to be run are the end of a block of the engine; `Cursor.step`.
-/

namespace Rv32emu

namespace Block

/-- The same block up to its links and its branch history table. -/
structure SameCode (b b' : Block) : Prop where
  pcStart : b'.pcStart = b.pcStart
  irs : b'.irs = b.irs

theorem SameCode.refl (b : Block) : b.SameCode b := ⟨rfl, rfl⟩

theorem SameCode.trans {b b' b'' : Block} (h : b.SameCode b') (h' : b'.SameCode b'') : b.SameCode b'' :=
  ⟨h'.pcStart.trans h.pcStart, h'.irs.trans h.irs⟩

theorem sameCode_link (b : Block) (taken : Bool) (r : Ref) : b.SameCode (b.link taken r) := by
  unfold Block.link
  simp only
  split_ifs <;> exact ⟨rfl, rfl⟩

/-- The block that `block_find_or_translate` builds in the state `s`. -/
structure TranslatedIn (env : Env) (host : Host) (s : Cpu) (b : Block) : Prop where
  pcStart : b.pcStart = s.PC
  irs : ∃ r, b.irs =
    matchPattern (host.fuseAlloc r) (optimizeConstant (blockTranslate env.extC s.ifetch s.PC).1)

end Block

namespace BlockMap

section Modify

variable {B : Type} {e : BlockMap B} {f : B → B} {P : B → B → Prop} {q r : Ref} {b b' : B}

theorem block_of_modify (hrefl : ∀ b, P b b) (hf : ∀ b, P b (f b)) (h : (e.modify q f).block r = some b') :
    ∃ b, e.block r = some b ∧ P b b' := by
  by_cases hr : r = q
  · subst hr
    simp only [BlockMap.modify, Function.update_self, Option.map_eq_some_iff] at h
    obtain ⟨b, hb, rfl⟩ := h
    exact ⟨b, hb, hf b⟩
  · simp only [BlockMap.modify, Function.update_of_ne hr] at h
    exact ⟨b', h, hrefl b'⟩

theorem modify_of_block (hrefl : ∀ b, P b b) (hf : ∀ b, P b (f b)) (h : e.block r = some b) :
    ∃ b', (e.modify q f).block r = some b' ∧ P b b' := by
  unfold BlockMap.modify
  by_cases hr : r = q
  · subst hr
    exact ⟨f b, by simp [h], hf b⟩
  · exact ⟨b, by simp [hr, h], hrefl b⟩

end Modify

theorem blockLookupOrFind_block {B : Type} (extC : Bool) (e : BlockMap B) (pc : Word) :
    (e.blockLookupOrFind extC pc).2.block = e.block := by
  unfold BlockMap.blockLookupOrFind
  simp only
  split
  · rfl
  · split <;> rfl

/-- Where a step keeps each block, up to `same`, or makes it: the blocks of a run have been there at step `m`, or
have been made since. -/
theorem since {B : Type} {same : B → B → Prop} {made : Nat → B → Prop} (run : Nat → BlockMap B)
    (hrefl : ∀ b, same b b) (htrans : ∀ {b b' b''}, same b b' → same b' b'' → same b b'')
    (hstep : ∀ {n r b'}, (run (n + 1)).block r = some b' →
      ∃ b, same b b' ∧ ((run n).block r = some b ∨ made n b))
    {m n : Nat} (hmn : m ≤ n) {r : Ref} {b' : B} (h : (run n).block r = some b') :
    ∃ b, same b b' ∧ ((run m).block r = some b ∨ ∃ k, m ≤ k ∧ k < n ∧ made k b) := by
  induction n, hmn using Nat.le_induction generalizing b' with
  | base => exact ⟨b', hrefl b', .inl h⟩
  | succ n hmn ih =>
    obtain ⟨b, hsame, hold | hnew⟩ := hstep h
    · obtain ⟨b0, hsame0, hm | ⟨k, hk, hkn, hmade⟩⟩ := ih hold
      · exact ⟨b0, htrans hsame0 hsame, .inl hm⟩
      · exact ⟨b0, htrans hsame0 hsame, .inr ⟨k, hk, by omega, hmade⟩⟩
    · exact ⟨b, hsame, .inr ⟨n, hmn, by omega, hnew⟩⟩

end BlockMap

/-- A block after `block_find_or_translate` is an old one or the one just translated. -/
theorem blockFindOrTranslate_block {env : Env} {host : Host} {e : Engine} {s : Cpu} {r : Ref} {b : Block}
    (h : (blockFindOrTranslate env host e s).2.1.block r = some b) :
    e.block r = some b ∨ b.TranslatedIn env host s := by
  have hlook := BlockMap.blockLookupOrFind_block env.extC e s.PC
  unfold blockFindOrTranslate at h
  rcases hfind : e.blockLookupOrFind env.extC s.PC with ⟨_ | q, e1⟩
  · rw [hfind] at hlook
    simp only [hfind] at h
    obtain ⟨e2, he2, hevict⟩ : ∃ e2,
        (if mapFull e1.size then { e1.blockMapClear with prev := none } else e1) = e2 ∧
          ∀ b', e2.block r = some b' → e.block r = some b' := by
      refine ⟨_, rfl, fun b' hb' => ?_⟩
      rw [← hlook]
      split at hb'
      · cases hb'
      · exact hb'
    simp only [he2] at h
    split_ifs at h
    · exact .inl (hevict b h)
    · exact .inl (hevict b h)
    · exact .inl (hevict b h)
    · by_cases hr : r = e2.fresh
      · simp only [BlockMap.blockInsert, hr, Function.update_self, Option.some.injEq] at h
        subst h
        exact .inr ⟨rfl, _, rfl⟩
      · simp only [BlockMap.blockInsert, Function.update_of_ne hr] at h
        exact .inl (hevict b h)
  · rw [hfind] at hlook
    simp only [hfind] at h
    rw [hlook] at h
    exact .inl h

namespace Conf

variable {env : Env} {host : Host} {c : Conf}

theorem refreshPrev_block (env : Env) (c : Conf) : (c.refreshPrev env).block = c.eng.block := by
  unfold Conf.refreshPrev
  split
  · rfl
  · split
    · rfl
    · exact BlockMap.blockLookupOrFind_block ..

theorem enter_eng (c : Conf) (disp r : Ref) (cycle : BitVec 64) (pc : Word) :
    (c.enter disp r cycle pc).1.eng = c.eng := by
  unfold Conf.enter
  split <;> rfl

theorem handlerReturned_block (c : Conf) (disp : Ref) (ok : Bool) :
    (c.handlerReturned disp ok).eng.block = c.eng.block := by
  unfold Conf.handlerReturned
  split <;> rfl

theorem lookupBranch_eng (c : Conf) (disp cur : Ref) (cycle : BitVec 64) (pc : Word) :
    (∃ f, (∀ b, Block.SameCode b (f b)) ∧
      (c.lookupBranch disp cur cycle pc).1.eng.block = (c.eng.modify cur f).block) ∨
    (c.lookupBranch disp cur cycle pc).1.eng.block = c.eng.block := by
  unfold Conf.lookupBranch
  dsimp only
  split
  · exact .inr (by rw [enter_eng])
  · rename_i r _ _
    refine .inl ⟨fun b => b.recordBranch ((pc >>> 2).setWidth 4) pc r, fun b => ⟨rfl, rfl⟩, ?_⟩
    rw [enter_eng]
  · exact .inr (handlerReturned_block ..)

/-- A handler changes no block but for the branch history table of the current one. -/
theorem stepRun_block (env : Env) (c : Conf) (disp cur : Ref) (rest : List Insn) (cycle : BitVec 64)
    (pc : Word) :
    (∃ f, (∀ b, Block.SameCode b (f b)) ∧
      (c.stepRun env disp cur rest cycle pc).1.eng.block = (c.eng.modify cur f).block) ∨
    (c.stepRun env disp cur rest cycle pc).1.eng.block = c.eng.block := by
  unfold Conf.stepRun
  cases rest with
  | nil => exact .inr rfl
  | cons ir rest =>
    simp only
    split
    · exact .inr rfl
    · exact .inr (by rw [enter_eng])
    · exact lookupBranch_eng ..
    · exact .inr (handlerReturned_block ..)
    · split_ifs
      · exact .inr rfl
      · exact .inr (handlerReturned_block ..)

theorem dispatch_block {r : Ref} {b' : Block} (h : (c.dispatch env host).1.eng.block r = some b') :
    ∃ b, b.SameCode b' ∧ (c.eng.block r = some b ∨ b.TranslatedIn env host c.cpu) := by
  have hrefresh := refreshPrev_block env c
  have hfind : ∀ b, (blockFindOrTranslate env host (c.refreshPrev env) c.cpu).2.1.block r = some b →
      c.eng.block r = some b ∨ b.TranslatedIn env host c.cpu := by
    intro b hb
    rw [← hrefresh]
    exact blockFindOrTranslate_block hb
  unfold Conf.dispatch at h
  rcases hout : blockFindOrTranslate env host (c.refreshPrev env) c.cpu with ⟨_ | q, e, s, events⟩
  · simp only [hout] at h hfind
    split_ifs at h
    all_goals exact ⟨b', .refl b', hfind b' h⟩
  · simp only [hout] at h hfind
    rcases hq : e.block q with _ | bq
    · simp only [hq] at h
      exact ⟨b', .refl b', hfind b' h⟩
    · simp only [hq] at h
      split at h
      · obtain ⟨b, hb, hsame⟩ := BlockMap.block_of_modify Block.SameCode.refl (fun b => b.sameCode_link _ _) h
        exact ⟨b, hsame, hfind b hb⟩
      · exact ⟨b', .refl b', hfind b' h⟩

/-- **A block after a step is a block before it, or has just been translated.** -/
theorem step_block {r : Ref} {b' : Block} (h : (c.step env host).1.eng.block r = some b') :
    ∃ b, b.SameCode b' ∧
      (c.eng.block r = some b ∨ (c.loc = .head ∧ b.TranslatedIn env host c.cpu)) := by
  unfold Conf.step at h
  split at h
  · exact ⟨b', .refl b', .inl h⟩
  · rename_i hloc
    split at h
    · obtain ⟨b, hsame, hb⟩ := dispatch_block h
      exact ⟨b, hsame, hb.imp id fun hnew => ⟨hloc, hnew⟩⟩
    · exact ⟨b', .refl b', .inl h⟩
  · rename_i disp cur rest cycle pc _
    rcases stepRun_block env c disp cur rest cycle pc with ⟨f, hf, heq⟩ | heq
    · rw [heq] at h
      obtain ⟨b, hb, hsame⟩ := BlockMap.block_of_modify Block.SameCode.refl hf h
      exact ⟨b, hsame, .inl hb⟩
    · rw [heq] at h
      exact ⟨b', .refl b', .inl h⟩
  · exact ⟨b', .refl b', .inl h⟩

/-! ## The nodes still to be run -/

/-- The nodes to be run are the end of a block of the engine. -/
def Cursor (c : Conf) : Prop :=
  match c.loc with
  | .run _ cur rest _ _ => ∃ b, c.eng.block cur = some b ∧ rest <:+ b.irs
  | _ => True

theorem enter_cursor (c : Conf) (disp r : Ref) (cycle : BitVec 64) (pc : Word) :
    (c.enter disp r cycle pc).1.Cursor := by
  unfold Conf.enter
  split
  · rename_i b hb
    exact ⟨b, hb, List.suffix_refl _⟩
  · trivial

theorem handlerReturned_cursor (c : Conf) (disp : Ref) (ok : Bool) :
    (c.handlerReturned disp ok).Cursor := by
  unfold Conf.handlerReturned
  split <;> trivial

theorem lookupBranch_cursor (c : Conf) (disp cur : Ref) (cycle : BitVec 64) (pc : Word) :
    (c.lookupBranch disp cur cycle pc).1.Cursor := by
  unfold Conf.lookupBranch
  simp only
  split
  · exact enter_cursor ..
  · exact enter_cursor ..
  · exact handlerReturned_cursor _ disp true

theorem dispatch_cursor (c : Conf) (env : Env) (host : Host) : (c.dispatch env host).1.Cursor := by
  unfold Conf.dispatch
  split
  · split <;> trivial
  · split
    · trivial
    · rename_i r e s _ _ _ b hb
      simp only [Cursor]
      split
      · rename_i p _
        obtain ⟨b', hb', hsame⟩ :=
          BlockMap.modify_of_block .refl (fun b => b.sameCode_link s.isBranchTaken r) (q := p) hb
        exact ⟨b', hb', by rw [hsame.irs]⟩
      · exact ⟨b, hb, List.suffix_refl _⟩

theorem Cursor.step (h : c.Cursor) (env : Env) (host : Host) : (c.step env host).1.Cursor := by
  unfold Conf.step
  split
  · trivial
  · split
    · exact dispatch_cursor ..
    · trivial
  · rename_i disp cur rest cycle pc hloc
    unfold Cursor at h
    simp only [hloc] at h
    obtain ⟨b, hb, hrest⟩ := h
    unfold Conf.stepRun
    cases rest with
    | nil => trivial
    | cons ir rest =>
      simp only
      split
      · exact ⟨b, hb, (List.suffix_cons ir rest).trans hrest⟩
      · exact enter_cursor ..
      · exact lookupBranch_cursor ..
      · exact handlerReturned_cursor _ disp _
      · split_ifs
        · trivial
        · exact handlerReturned_cursor _ disp _
  · rename_i hloc
    exact h

theorem cursor_stepN (h : c.Cursor) (env : Env) (host : Host) (n : Nat) :
    (c.stepN env host n).1.Cursor := by
  induction n with
  | zero => exact h
  | succ n ih =>
    rw [stepN_succ]
    exact ih.step env host

end Conf

end Rv32emu
