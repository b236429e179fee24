import Rv32emu.T2cThread

/-!
# The blocks of the two threads

* `startAlloc_cases`, …, `endPublish_cases` : what a step of `T2cWorld` does, and when;
* `T2cWorld.Owned` : who uses which `block_t`, and who holds `cache_lock`;
* `T2cWorld.Pooled` : the list of the free elements, while `mpool_alloc` and `mpool_free` do not overlap;
* `T2cWorld.Reaches` : the states of the runs, through states with a given property;
* `block_owned` : in every such run an element is allocated exactly while somebody uses it, or it has been lost.
-/

namespace Rv32emu

attribute [grind =] MainThread.evicted MainThread.locks T2cThread.block T2cThread.compiles T2cThread.locks
  T2cThread.writer T2cThread.frees BlockAlloc.block BlockAlloc.takes

/-! ## The threads -/

@[grind →]
theorem MainThread.locks_of_evicted {m : MainThread} {b : Nat} (h : m.evicted = some b) : m.locks = true := by
  cases m with
  | evict => rfl
  | _ => cases h

@[grind =]
theorem MainThread.evicted_lagged (cache cache' : CodeTab) (m : MainThread) :
    (m.lagged cache cache').evicted = m.evicted := by
  cases m <;> rfl

@[grind =]
theorem MainThread.locks_lagged (cache cache' : CodeTab) (m : MainThread) :
    (m.lagged cache cache').locks = m.locks := by
  cases m <;> rfl

@[grind =]
theorem MainThread.evicted_wrote (w : CacheWriter) (m : MainThread) : (m.wrote w).evicted = m.evicted := by
  cases m <;> rfl

@[grind =]
theorem MainThread.locks_wrote (w : CacheWriter) (m : MainThread) : (m.wrote w).locks = m.locks := by
  cases m <;> rfl

theorem MainThread.eq_idle {m : MainThread} (h : m.isIdle = true) : m = .idle := by
  cases m with
  | idle => rfl
  | _ => cases h

theorem T2cThread.eq_idle {t : T2cThread} (h : t.isIdle = true) : t = .idle := by
  cases t with
  | idle => rfl
  | _ => cases h

theorem BlockAlloc.eq_none {a : BlockAlloc} (h : a.isNone = true) : a = .none := by
  cases a with
  | none => rfl
  | _ => cases h

@[grind →]
theorem T2cThread.block_of_compiles {t : T2cThread} {b : Nat} (h : t.compiles = some b) : t.block = some b := by
  cases t with
  | idle | publishing | freeing => cases h
  | _ => exact h

@[grind →]
theorem T2cThread.compiles_of_block {t : T2cThread} {b : Nat} (h : t.block = some b) (hl : t.locks = false) :
    t.compiles = some b := by
  cases t with
  | publishing | freeing => cases hl
  | _ => exact h

@[grind →]
theorem T2cThread.locks_of_writer {t : T2cThread} {w : CacheWriter} (h : t.writer = some w) : t.locks = true := by
  cases t with
  | publishing => rfl
  | _ => cases h

@[grind →]
theorem T2cThread.locks_of_frees {t : T2cThread} (h : t.frees = true) : t.locks = true := by
  cases t with
  | freeing => rfl
  | _ => cases h

theorem CacheWriter.todo_of_done {w : CacheWriter} (h : w.done = true) : w.todo = [] := List.isEmpty_iff.mp h

/-- What the T2C thread does next with a block that gets no code. -/
def T2cWorld.release (s : T2cWorld) (b : Nat) (blk : T2cBlock) : T2cThread :=
  if blk.shouldFree then .freeing b s.free else .idle

/-! ## What a step does -/

namespace T2cWorld

variable {s s' : T2cWorld}

theorem startAlloc_cases (hs : s.startAlloc = some s') :
    s.main = .idle ∧ s.alloc = .none ∧ s' = { s with alloc := .taking s.free } := by
  unfold startAlloc at hs
  split_ifs at hs with hg
  exact ⟨MainThread.eq_idle hg.1, BlockAlloc.eq_none hg.2, (Option.some.inj hs).symm⟩

theorem extend_cases {n : Nat} (hs : s.extend n = some s') :
    s.alloc = .taking [] ∧ s' = { s with
      free := List.range' s.size n, size := s.size + n, alloc := .taking (List.range' s.size n) } := by
  unfold extend at hs
  split at hs
  next ha => exact ⟨ha, (Option.some.inj hs).symm⟩
  next => cases hs

theorem endAlloc_cases (hs : s.endAlloc = some s') :
    (s.alloc = .taking [] ∧ s' = { s with alloc := .none }) ∨
      ∃ b free, s.alloc = .taking (b :: free) ∧
        s' = { s with free, blocks := Function.update s.blocks b (some {}), alloc := .taken b } := by
  unfold endAlloc at hs
  split at hs
  next ha => exact .inl ⟨ha, (Option.some.inj hs).symm⟩
  next b free ha => exact .inr ⟨b, free, ha, (Option.some.inj hs).symm⟩
  next => cases hs

theorem fail_cases (hs : s.fail = some s') :
    ∃ b, s.alloc = .taken b ∧ s' = { s with alloc := .none, lost := b :: s.lost } := by
  unfold fail at hs
  split at hs
  next b ha => exact ⟨b, ha, (Option.some.inj hs).symm⟩
  next => cases hs

theorem put_cases {key : BitVec 64} {pcEnd : Word} {outcome : PutOutcome} (hs : s.put key pcEnd outcome = some s') :
    s.main = .idle ∧ s.t2c.locks = false ∧ ∃ b, s.alloc = .taken b ∧
      (outcome = .failed ∧ s' = { s with
          blocks := Function.update s.blocks b (some { key, pcEnd }), alloc := .none, lost := b :: s.lost } ∨
        outcome = .added ∧ s' = { s with
          blocks := Function.update s.blocks b (some { key, pcEnd })
          cached := Function.update s.cached b true
          alloc := .none } ∨
        ∃ r blk, outcome = .replaced r ∧ s.cached r = true ∧ s.blocks r = some blk ∧
          s' = { s with
            blocks := Function.update (Function.update s.blocks b (some { key, pcEnd })) r
              (some { blk with shouldFree := blk.shouldFree || blk.isCompiling })
            cached := Function.update (Function.update s.cached b true) r false
            alloc := .none
            main := .evict r blk.withdraw }) := by
  unfold put at hs
  split at hs
  next b ha =>
    split_ifs at hs with hg
    refine ⟨MainThread.eq_idle hg.1, Bool.eq_false_iff.mpr hg.2, b, ha, ?_⟩
    cases outcome with
    | failed => exact .inl ⟨rfl, (Option.some.inj hs).symm⟩
    | added => exact .inr (.inl ⟨rfl, (Option.some.inj hs).symm⟩)
    | replaced r =>
      simp only [] at hs
      split_ifs at hs with hr
      obtain ⟨blk, hblk, hs⟩ := Option.map_eq_some_iff.mp hs
      exact .inr (.inr ⟨r, blk, rfl, hr, hblk, hs.symm⟩)
  next => cases hs

theorem endEvict_cases {r : Nat} (hs : s.endEvict r = some s') :
    ∃ blk, s.blocks r = some blk ∧
      (blk.isCompiling = true ∧
          s' = { s with inlineCache := inlineCacheClearKey s.inlineCache blk.key, main := .idle } ∨
        blk.isCompiling = false ∧
          s' = { s with
            inlineCache := inlineCacheClearKey s.inlineCache blk.key
            engines := s.disposed blk.func
            blocks := Function.update s.blocks r none
            free := r :: s.free
            main := .idle }) := by
  obtain ⟨blk, hblk, hs⟩ := Option.map_eq_some_iff.mp hs
  refine ⟨blk, hblk, ?_⟩
  split_ifs at hs with hc
  · exact .inl ⟨hc, hs.symm⟩
  · exact .inr ⟨Bool.eq_false_iff.mpr hc, hs.symm⟩

/-- The blocks after the first part of a fence. -/
def fenced (s : T2cWorld) (va : Option Word) (satp : Word) (scan : Bool) (b : Nat) : Option T2cBlock :=
  (s.blocks b).map fun blk =>
    if s.cached b ∧ blk.covered va satp scan ∧ ¬ blk.invalidated then { blk with invalidated := true, hot2 := false }
    else blk

theorem fence_cases {va : Option Word} {satp : Word} {scan : Bool} (hs : s.fence va satp scan = some s') :
    s.main = .idle ∧ s.t2c.locks = false ∧
      s' = { s with blocks := s.fenced va satp scan, main := .fence va satp (.start (fenceOp va satp)) } := by
  unfold fence at hs
  split_ifs at hs with hg
  exact ⟨MainThread.eq_idle hg.1, Bool.eq_false_iff.mpr hg.2, (Option.some.inj hs).symm⟩

theorem flush_cases (hs : s.flush = some s') : s.main = .idle ∧ s' = { s with main := .flush (.start .clear) } := by
  unfold flush at hs
  split_ifs at hs with hg
  exact ⟨MainThread.eq_idle hg, (Option.some.inj hs).symm⟩

theorem look_cases {system : Bool} {target satp : Word} (hs : s.look system target satp = some s') :
    s.main = .idle ∧ ∃ key ic jc, s' = { s with main := .look key ic jc 0 .inline } := by
  unfold look at hs
  simp only [] at hs
  split_ifs at hs with hg
  exact ⟨MainThread.eq_idle hg, _, _, _, (Option.some.inj hs).symm⟩

/-- The loads restart the count of the stores to the sequence number. -/
def LookStage.lag (lag : Nat) : LookStage → Nat
  | .seq => 0
  | _ => lag

theorem mainStep_cases (hs : s.mainStep = some s') :
    (∃ key ic jc lag stage, s.main = .look key ic jc lag stage ∧
      s' = { s with
        inlineCache := (stage.step key ic jc s.jitCache s.inlineCache).1
        main := .look key ic jc (LookStage.lag lag stage) (stage.step key ic jc s.jitCache s.inlineCache).2 }) ∨
    ∃ w, s.main.writer = some w ∧
      s' = { s with jitCache := (w.step s.jitCache).1, main := s.main.wrote (w.step s.jitCache).2 } := by
  unfold mainStep at hs
  cases hm : s.main with
  | idle =>
    rw [hm] at hs
    cases hs
  | look key ic jc lag stage =>
    rw [hm] at hs
    refine .inl ⟨key, ic, jc, lag, stage, rfl, (Option.some.inj hs).symm.trans ?_⟩
    cases stage <;> rfl
  | _ =>
    rw [hm] at hs
    exact .inr ⟨_, rfl, (Option.some.inj hs).symm⟩

theorem mainEnd_cases (hs : s.mainEnd = some s') :
    (∃ r w, s.main = .evict r w ∧ w.todo = [] ∧ s.endEvict r = some s') ∨
      (∃ va satp w, s.main = .fence va satp w ∧ w.todo = [] ∧ s' = s.endFence va satp) ∨
        (∃ w, s.main = .flush w ∧ w.todo = [] ∧ s' = s.endFlush) ∨
          ∃ key ic jc lag stage, s.main = .look key ic jc lag stage ∧ s' = { s with main := .idle } := by
  unfold mainEnd at hs
  cases hm : s.main with
  | idle =>
    rw [hm] at hs
    cases hs
  | evict r w =>
    rw [hm] at hs
    simp only [] at hs
    split_ifs at hs with hd
    exact .inl ⟨r, w, rfl, w.todo_of_done hd, hs⟩
  | fence va satp w =>
    rw [hm] at hs
    simp only [] at hs
    split_ifs at hs with hd
    exact .inr (.inl ⟨va, satp, w, rfl, w.todo_of_done hd, (Option.some.inj hs).symm⟩)
  | flush w =>
    rw [hm] at hs
    simp only [] at hs
    split_ifs at hs with hd
    exact .inr (.inr (.inl ⟨w, rfl, w.todo_of_done hd, (Option.some.inj hs).symm⟩))
  | look key ic jc lag stage =>
    rw [hm] at hs
    refine .inr (.inr (.inr ⟨key, ic, jc, lag, stage, rfl, ?_⟩))
    cases stage with
    | found => exact (Option.some.inj hs).symm
    | fallback => exact (Option.some.inj hs).symm
    | _ => cases hs

theorem take_cases {b : Nat} (hs : s.take b = some s') :
    s.t2c = .idle ∧ s.main.locks = false ∧ s.cached b = true ∧ ∃ blk, s.blocks b = some blk ∧
      (s' = s ∨
        s' = { s with
          blocks := Function.update s.blocks b (some { blk with isCompiling := true })
          t2c := .compiling b false }) := by
  unfold take at hs
  split_ifs at hs with hg
  obtain ⟨hidle, hlock, hc⟩ := hg
  obtain ⟨blk, hblk, hs⟩ := Option.map_eq_some_iff.mp hs
  refine ⟨T2cThread.eq_idle hidle, Bool.eq_false_iff.mpr hlock, hc, blk, hblk, ?_⟩
  split_ifs at hs
  · exact .inl hs.symm
  · exact .inr hs.symm

theorem finish_cases {func : Option Word} (hs : s.finish func = some s') :
    ∃ b stale, s.t2c = .compiling b stale ∧
      (s' = { s with t2c := .compiled b none } ∨
        ∃ f blk, s.engines f = none ∧ s.blocks b = some blk ∧
          s' = { s with
            engines := Function.update s.engines f (some { key := blk.key, stale })
            t2c := .compiled b (some f) }) := by
  unfold finish at hs
  cases ht : s.t2c with
  | compiling b stale =>
    rw [ht] at hs
    refine ⟨b, stale, rfl, ?_⟩
    cases func with
    | none => exact .inl (Option.some.inj hs).symm
    | some f =>
      simp only [] at hs
      split_ifs at hs with hf
      obtain ⟨blk, hblk, hs⟩ := Option.map_eq_some_iff.mp hs
      exact .inr ⟨f, blk, Option.isNone_iff_eq_none.mp hf, hblk, hs.symm⟩
  | _ =>
    rw [ht] at hs
    cases hs

theorem publish_cases (hs : s.publish = some s') :
    ∃ b func blk, s.t2c = .compiled b func ∧ s.main.locks = false ∧ s.blocks b = some blk ∧
      (func = none ∧ s' = { s with
          blocks := Function.update s.blocks b (some { blk with isCompiling := false }), t2c := s.release b blk } ∨
        (∃ f, func = some f ∧ s' = { s with
          blocks := Function.update s.blocks b (some { blk with isCompiling := false })
          engines := Function.update s.engines f none
          t2c := s.release b blk }) ∨
        ∃ f, func = some f ∧ blk.shouldFree = false ∧ blk.invalidated = false ∧ s' = { s with
          blocks := Function.update s.blocks b (some { blk with isCompiling := false, func := some f })
          engines := Function.update s.engines f ((s.engines f).map fun e => { e with shared := true })
          t2c := .publishing b (.start (.update blk.key (some f))) }) := by
  unfold publish at hs
  cases ht : s.t2c with
  | compiled b func =>
    rw [ht] at hs
    simp only [] at hs
    split_ifs at hs with hl
    obtain ⟨blk, hblk, hs⟩ := Option.map_eq_some_iff.mp hs
    refine ⟨b, func, blk, rfl, Bool.eq_false_iff.mpr hl, hblk, ?_⟩
    cases func with
    | none => exact .inl ⟨rfl, hs.symm⟩
    | some f =>
      simp only [] at hs
      split_ifs at hs with hf hi
      · exact .inr (.inl ⟨f, rfl, by rw [release, if_pos hf]; exact hs.symm⟩)
      · exact .inr (.inl ⟨f, rfl, by rw [release, if_neg hf]; exact hs.symm⟩)
      · exact .inr (.inr ⟨f, rfl, Bool.eq_false_iff.mpr hf, Bool.eq_false_iff.mpr hi, hs.symm⟩)
  | _ =>
    rw [ht] at hs
    cases hs

theorem endFree_cases (hs : s.endFree = some s') :
    ∃ b free, s.t2c = .freeing b free ∧
      s' = { s with blocks := Function.update s.blocks b none, free := b :: free, t2c := .idle } := by
  unfold endFree at hs
  split at hs
  next b free ht => exact ⟨b, free, ht, (Option.some.inj hs).symm⟩
  next => cases hs

theorem t2cStep_cases (hs : s.t2cStep = some s') :
    ∃ b w, s.t2c = .publishing b w ∧
      s' = { s with
        jitCache := (w.step s.jitCache).1
        main := s.main.lagged s.jitCache (w.step s.jitCache).1
        t2c := .publishing b (w.step s.jitCache).2 } := by
  unfold t2cStep at hs
  cases ht : s.t2c with
  | publishing b w =>
    rw [ht] at hs
    exact ⟨b, w, rfl, (Option.some.inj hs).symm⟩
  | _ =>
    rw [ht] at hs
    cases hs

theorem endPublish_cases (hs : s.endPublish = some s') :
    ∃ b w blk, s.t2c = .publishing b w ∧ w.todo = [] ∧ s.blocks b = some blk ∧
      s' = { s with blocks := Function.update s.blocks b (some { blk with hot2 := true }), t2c := .idle } := by
  unfold endPublish at hs
  cases ht : s.t2c with
  | publishing b w =>
    rw [ht] at hs
    simp only [] at hs
    split_ifs at hs with hd
    obtain ⟨blk, hblk, hs⟩ := Option.map_eq_some_iff.mp hs
    exact ⟨b, w, blk, rfl, w.todo_of_done hd, hblk, hs.symm⟩
  | _ =>
    rw [ht] at hs
    cases hs

/-! ## Who uses a block -/

/-- The elements of `block_mp` and their users: the cache, the main thread while it translates or evicts one, and the
T2C thread. -/
structure Owned (s : T2cWorld) : Prop where
  free : ∀ b, s.blocks b = none → s.cached b = false ∧ s.main.evicted ≠ some b ∧ s.t2c.block ≠ some b ∧
    s.alloc.block ≠ some b ∧ b ∉ s.lost
  owner : ∀ b blk, s.blocks b = some blk → s.cached b = true ∨ s.main.evicted = some b ∨ s.t2c.block = some b ∨
    s.alloc.block = some b ∨ b ∈ s.lost
  kept : ∀ b blk, s.blocks b = some blk → s.cached b = true → blk.shouldFree = false
  marked : ∀ b blk, s.blocks b = some blk → blk.shouldFree = true → s.t2c.block = some b
  evicted : ∀ b blk, s.blocks b = some blk → s.main.evicted = some b →
    s.cached b = false ∧ blk.shouldFree = blk.isCompiling
  left : ∀ b blk, s.blocks b = some blk → s.t2c.block = some b → s.cached b = false → blk.shouldFree = true
  compiles : ∀ b blk, s.blocks b = some blk → (blk.isCompiling = true ↔ s.t2c.compiles = some b)
  publishing : ∀ w, s.t2c.writer = some w → ∀ b, s.t2c.block = some b → s.cached b = true
  freeing : s.t2c.frees = true → ∀ b, s.t2c.block = some b → s.cached b = false
  lock : s.t2c.locks = true → s.main.locks = false
  fresh : ∀ b, s.alloc.block = some b → s.cached b = false ∧ s.main.evicted ≠ some b ∧ s.t2c.block ≠ some b ∧
    b ∉ s.lost
  gone : ∀ b ∈ s.lost, s.cached b = false ∧ s.main.evicted ≠ some b ∧ s.t2c.block ≠ some b
  nodup : s.lost.Nodup
  evicting : s.main.evicted ≠ none → s.alloc = .none

theorem owned_init : Owned {} where
  free _ _ := ⟨rfl, by simp [MainThread.evicted], by simp [T2cThread.block], by simp [BlockAlloc.block], by simp⟩
  owner _ _ h := by cases h
  kept _ _ h := by cases h
  marked _ _ h := by cases h
  evicted _ _ h := by cases h
  left _ _ h := by cases h
  compiles _ _ h := by cases h
  publishing _ h := by cases h
  freeing h := by cases h
  lock h := by cases h
  fresh _ h := by cases h
  gone _ h := by cases h
  nodup := List.nodup_nil
  evicting _ := rfl

/-- The tables, the engines, the list of the free elements and the inside of the main thread do not matter. -/
theorem Owned.congr (h : s.Owned) (hblocks : s'.blocks = s.blocks) (hcached : s'.cached = s.cached)
    (hevicted : s'.main.evicted = s.main.evicted) (hlocks : s'.main.locks = s.main.locks) (ht2c : s'.t2c = s.t2c)
    (halloc : s'.alloc = s.alloc) (hlost : s'.lost = s.lost) : s'.Owned := by
  obtain ⟨h1, h2, h3, h4, h5, h6, h7, h8, h9, h10, h11, h12, h13, h14⟩ := h
  constructor
  all_goals simp only [hblocks, hcached, hevicted, hlocks, ht2c, halloc, hlost]
  all_goals assumption

theorem Owned.startAlloc (h : s.Owned) (hs : s.startAlloc = some s') : s'.Owned := by
  obtain ⟨h1, h2, h3, h4, h5, h6, h7, h8, h9, h10, h11, h12, h13, h14⟩ := h
  obtain ⟨hm, ha, rfl⟩ := startAlloc_cases hs
  clear hs
  constructor
  all_goals grind -ring -linarith

theorem Owned.extend {n : Nat} (h : s.Owned) (hs : s.extend n = some s') : s'.Owned := by
  obtain ⟨h1, h2, h3, h4, h5, h6, h7, h8, h9, h10, h11, h12, h13, h14⟩ := h
  obtain ⟨ha, rfl⟩ := extend_cases hs
  clear hs
  constructor
  all_goals grind -ring -linarith

/-- `mpool_alloc` is about to take an element that is not in use. -/
def Unused (s : T2cWorld) : Prop := ∀ b free, s.alloc = .taking (b :: free) → s.blocks b = none

theorem Owned.endAlloc (h : s.Owned) (hu : s.Unused) (hs : s.endAlloc = some s') : s'.Owned := by
  obtain ⟨h1, h2, h3, h4, h5, h6, h7, h8, h9, h10, h11, h12, h13, h14⟩ := h
  rcases endAlloc_cases hs with ⟨ha, rfl⟩ | ⟨b, free, ha, rfl⟩
  · clear hs
    constructor
    all_goals grind -ring -linarith
  · clear hs
    have hfree := hu b free ha
    constructor
    all_goals simp only [Function.update_apply]
    all_goals grind -ring -linarith

theorem Owned.fail (h : s.Owned) (hs : s.fail = some s') : s'.Owned := by
  obtain ⟨h1, h2, h3, h4, h5, h6, h7, h8, h9, h10, h11, h12, h13, h14⟩ := h
  obtain ⟨b, ha, rfl⟩ := fail_cases hs
  clear hs
  constructor
  all_goals grind -ring -linarith

theorem Owned.put {key : BitVec 64} {pcEnd : Word} {outcome : PutOutcome} (h : s.Owned)
    (hs : s.put key pcEnd outcome = some s') : s'.Owned := by
  obtain ⟨h1, h2, h3, h4, h5, h6, h7, h8, h9, h10, h11, h12, h13, h14⟩ := h
  obtain ⟨hm, hlock, b, ha, ⟨-, rfl⟩ | ⟨-, rfl⟩ | ⟨r, blk, -, hr, hblk, rfl⟩⟩ := put_cases hs
  all_goals
    clear hs
    constructor
    all_goals simp only [Function.update_apply]
    all_goals grind -ring -linarith

theorem Owned.endEvict {r : Nat} {w : CacheWriter} (h : s.Owned) (hm : s.main = .evict r w)
    (hs : s.endEvict r = some s') : s'.Owned := by
  obtain ⟨h1, h2, h3, h4, h5, h6, h7, h8, h9, h10, h11, h12, h13, h14⟩ := h
  obtain ⟨blk, hblk, ⟨hc, rfl⟩ | ⟨hc, rfl⟩⟩ := endEvict_cases hs
  all_goals
    clear hs
    constructor
    all_goals simp only [Function.update_apply]
    all_goals grind -ring -linarith

theorem Owned.fence {va : Option Word} {satp : Word} {scan : Bool} (h : s.Owned)
    (hs : s.fence va satp scan = some s') : s'.Owned := by
  obtain ⟨h1, h2, h3, h4, h5, h6, h7, h8, h9, h10, h11, h12, h13, h14⟩ := h
  obtain ⟨hm, hlock, rfl⟩ := fence_cases hs
  clear hs
  constructor
  all_goals simp only [fenced, Option.map_eq_some_iff, Option.map_eq_none_iff]
  all_goals grind -ring -linarith

theorem Owned.endFence (h : s.Owned) {va : Option Word} {satp : Word} {w : CacheWriter}
    (hm : s.main = .fence va satp w) : (s.endFence va satp).Owned := by
  obtain ⟨h1, h2, h3, h4, h5, h6, h7, h8, h9, h10, h11, h12, h13, h14⟩ := h
  constructor
  all_goals simp only [T2cWorld.endFence, staleT2c]
  all_goals grind -ring -linarith

theorem Owned.take {b : Nat} (h : s.Owned) (hs : s.take b = some s') : s'.Owned := by
  obtain ⟨hidle, hlock, hc, blk, hblk, rfl | rfl⟩ := take_cases hs
  · exact h
  · obtain ⟨h1, h2, h3, h4, h5, h6, h7, h8, h9, h10, h11, h12, h13, h14⟩ := h
    clear hs
    constructor
    all_goals simp only [Function.update_apply]
    all_goals grind -ring -linarith

theorem Owned.finish {func : Option Word} (h : s.Owned) (hs : s.finish func = some s') : s'.Owned := by
  obtain ⟨h1, h2, h3, h4, h5, h6, h7, h8, h9, h10, h11, h12, h13, h14⟩ := h
  obtain ⟨b, stale, ht, rfl | ⟨f, blk, -, hblk, rfl⟩⟩ := finish_cases hs
  all_goals
    clear hs
    constructor
    all_goals grind -ring -linarith

theorem Owned.publish (h : s.Owned) (hs : s.publish = some s') : s'.Owned := by
  obtain ⟨h1, h2, h3, h4, h5, h6, h7, h8, h9, h10, h11, h12, h13, h14⟩ := h
  obtain ⟨b, func, blk, ht, hlock, hblk, ⟨-, rfl⟩ | ⟨f, -, rfl⟩ | ⟨f, -, hf, -, rfl⟩⟩ := publish_cases hs
  all_goals
    clear hs
    constructor
    all_goals simp only [Function.update_apply, release]
    all_goals grind -ring -linarith

theorem Owned.endFree (h : s.Owned) (hs : s.endFree = some s') : s'.Owned := by
  obtain ⟨h1, h2, h3, h4, h5, h6, h7, h8, h9, h10, h11, h12, h13, h14⟩ := h
  obtain ⟨b, free, ht, rfl⟩ := endFree_cases hs
  clear hs
  constructor
  all_goals simp only [Function.update_apply]
  all_goals grind -ring -linarith

theorem Owned.endPublish (h : s.Owned) (hs : s.endPublish = some s') : s'.Owned := by
  obtain ⟨h1, h2, h3, h4, h5, h6, h7, h8, h9, h10, h11, h12, h13, h14⟩ := h
  obtain ⟨b, w, blk, ht, -, hblk, rfl⟩ := endPublish_cases hs
  have hcached := h8 w (by rw [ht]; rfl) b (by rw [ht]; rfl)
  clear hs
  constructor
  all_goals simp only [Function.update_apply]
  all_goals grind -ring -linarith

theorem Owned.t2cStep (h : s.Owned) (hs : s.t2cStep = some s') : s'.Owned := by
  obtain ⟨h1, h2, h3, h4, h5, h6, h7, h8, h9, h10, h11, h12, h13, h14⟩ := h
  obtain ⟨b, w, ht, rfl⟩ := t2cStep_cases hs
  clear hs
  constructor
  all_goals grind -ring -linarith

theorem Owned.mainStep (h : s.Owned) (hs : s.mainStep = some s') : s'.Owned := by
  rcases mainStep_cases hs with ⟨key, ic, jc, lag, stage, hm, rfl⟩ | ⟨w, -, rfl⟩
  · refine h.congr rfl rfl ?_ ?_ rfl rfl rfl
    all_goals
      rw [hm]
      rfl
  · exact h.congr rfl rfl (MainThread.evicted_wrote _ _) (MainThread.locks_wrote _ _) rfl rfl rfl

theorem Owned.mainEnd (h : s.Owned) (hs : s.mainEnd = some s') : s'.Owned := by
  rcases mainEnd_cases hs with ⟨r, w, hm, -, hs⟩ | ⟨va, satp, w, hm, -, rfl⟩ | ⟨w, hm, -, rfl⟩ |
    ⟨key, ic, jc, lag, stage, hm, rfl⟩
  · exact h.endEvict hm hs
  · exact h.endFence hm
  all_goals
    refine h.congr rfl rfl ?_ ?_ rfl rfl rfl
    all_goals
      rw [hm]
      rfl

theorem Owned.step {a : T2cAct} (h : s.Owned) (hu : s.Unused) (hs : s.step a = some s') : s'.Owned := by
  cases a with
  | startAlloc => exact h.startAlloc hs
  | extend => exact h.extend hs
  | endAlloc => exact h.endAlloc hu hs
  | fail => exact h.fail hs
  | put => exact h.put hs
  | fence => exact h.fence hs
  | flush =>
    obtain ⟨hm, rfl⟩ := flush_cases hs
    refine h.congr rfl rfl ?_ ?_ rfl rfl rfl
    all_goals
      rw [hm]
      rfl
  | look =>
    obtain ⟨hm, key, ic, jc, rfl⟩ := look_cases hs
    refine h.congr rfl rfl ?_ ?_ rfl rfl rfl
    all_goals
      rw [hm]
      rfl
  | mainStep => exact h.mainStep hs
  | mainEnd => exact h.mainEnd hs
  | take => exact h.take hs
  | finish => exact h.finish hs
  | publish => exact h.publish hs
  | endFree => exact h.endFree hs
  | t2cStep => exact h.t2cStep hs
  | endPublish => exact h.endPublish hs

/-! ## The list of the free elements -/

/-- `mpool_alloc` of the main thread and `mpool_free` of the T2C thread are not at work at once. -/
def Apart (s : T2cWorld) : Prop := ¬ (s.alloc.takes = true ∧ s.t2c.frees = true)

/-- The list has the elements that are not in use, once each, and what the two calls have read is still true. -/
structure Pooled (s : T2cWorld) : Prop where
  nodup : s.free.Nodup
  mem : ∀ b, b ∈ s.free ↔ b < s.size ∧ s.blocks b = none
  used : ∀ b blk, s.blocks b = some blk → b < s.size
  taking : ∀ free, s.alloc = .taking free → free = s.free
  freeing : ∀ b free, s.t2c = .freeing b free → free = s.free

theorem pooled_init : Pooled {} where
  nodup := List.nodup_nil
  mem _ := by simp
  used _ _ h := by cases h
  taking _ h := by cases h
  freeing _ _ h := by cases h

theorem Pooled.unused (h : s.Pooled) : s.Unused := by
  intro b free ha
  have hmem : b ∈ s.free := h.taking _ ha ▸ List.mem_cons_self
  exact ((h.mem b).mp hmem).2

theorem Pooled.congr (h : s.Pooled) (hfree : s'.free = s.free) (hsize : s'.size = s.size)
    (hblocks : ∀ b, s'.blocks b = none ↔ s.blocks b = none)
    (halloc : ∀ free, s'.alloc = .taking free → s.alloc = .taking free)
    (ht2c : ∀ b free, s'.t2c = .freeing b free → free = s.free) : s'.Pooled := by
  refine ⟨hfree ▸ h.nodup, fun b => ?_, fun b blk hb => ?_, fun free ha => ?_, fun b free ht => ?_⟩
  · rw [hfree, hsize, hblocks]
    exact h.mem b
  · rw [hsize]
    cases hb' : s.blocks b with
    | none => exact absurd (hb.symm.trans ((hblocks b).mpr hb')) (Option.some_ne_none blk)
    | some blk' => exact h.used b blk' hb'
  · rw [hfree]
    exact h.taking free (halloc free ha)
  · rw [hfree]
    exact ht2c b free ht

theorem update_none_iff {blocks : Nat → Option T2cBlock} {b : Nat} (hb : blocks b ≠ none) (blk : T2cBlock)
    (b' : Nat) : Function.update blocks b (some blk) b' = none ↔ blocks b' = none := by
  by_cases h : b' = b
  · rw [h, Function.update_self]
    exact iff_of_false (Option.some_ne_none blk) hb
  · rw [Function.update_of_ne h]

theorem Pooled.extend {n : Nat} (h : s.Pooled) (ha : s.Apart) (hs : s.extend n = some s') : s'.Pooled := by
  obtain ⟨halloc, rfl⟩ := extend_cases hs
  have hempty : s.free = [] := (h.taking [] halloc).symm
  -- every element of the old arenas is in use
  have hused (b : Nat) : b < s.size ↔ s.blocks b ≠ none := by
    have hmem := h.mem b
    rw [hempty] at hmem
    constructor
    · exact fun hb hnone => List.not_mem_nil (hmem.mpr ⟨hb, hnone⟩)
    · intro hb
      obtain ⟨blk, hblk⟩ := Option.ne_none_iff_exists'.mp hb
      exact h.used b blk hblk
  refine ⟨List.nodup_range', fun b => ?_, fun b blk hb => ?_, fun free hfree => ?_, fun b free ht => ?_⟩
  · rw [List.mem_range'_1, and_comm (a := b < s.size + n)]
    have hb := hused b
    constructor
    · rintro ⟨hge, hlt⟩
      exact ⟨not_not.mp fun hne => absurd (hb.mpr hne) (by omega), hlt⟩
    · rintro ⟨hnone, hlt⟩
      exact ⟨not_lt.mp fun hold => hb.mp hold hnone, hlt⟩
  · exact Nat.lt_add_right n (h.used b blk hb)
  · exact (BlockAlloc.taking.inj hfree).symm
  · exact absurd ⟨by rw [halloc]; rfl, by rw [show s.t2c = _ from ht]; rfl⟩ ha

theorem Pooled.endAlloc (h : s.Pooled) (ha : s.Apart) (hs : s.endAlloc = some s') : s'.Pooled := by
  rcases endAlloc_cases hs with ⟨halloc, rfl⟩ | ⟨b, free, halloc, rfl⟩
  · exact h.congr rfl rfl (fun _ => Iff.rfl) (fun _ hf => by cases hf) h.freeing
  · have hfree : b :: free = s.free := h.taking _ halloc
    obtain ⟨hb, hnodup⟩ := List.nodup_cons.mp (hfree ▸ h.nodup)
    refine ⟨hnodup, fun b' => ?_, fun b' blk hb' => ?_, fun _ hf => (by cases hf), fun b' free' ht => ?_⟩
    · have hmem := h.mem b'
      rw [← hfree, List.mem_cons] at hmem
      simp only [Function.update_apply]
      grind
    · have hmem := (h.mem b).mp (hfree ▸ List.mem_cons_self)
      simp only [Function.update_apply] at hb'
      split_ifs at hb' with heq
      · exact heq ▸ hmem.1
      · exact h.used b' blk hb'
    · exact absurd ⟨by rw [halloc]; rfl, by rw [show s.t2c = _ from ht]; rfl⟩ ha

/-- Element `b` goes back to the list. -/
theorem Pooled.give {b : Nat} {blk : T2cBlock} (h : s.Pooled) (hb : s.blocks b = some blk)
    (hfree : s'.free = b :: s.free) (hsize : s'.size = s.size) (hblocks : s'.blocks = Function.update s.blocks b none)
    (halloc : ∀ free, s'.alloc ≠ .taking free) (ht2c : ∀ b free, s'.t2c ≠ .freeing b free) : s'.Pooled := by
  refine ⟨?_, fun b' => ?_, fun b' blk' hb' => ?_, fun free ha => absurd ha (halloc free),
    fun b' free ht => absurd ht (ht2c b' free)⟩
  · rw [hfree, List.nodup_cons]
    exact ⟨fun hmem => Option.some_ne_none blk (hb.symm.trans ((h.mem b).mp hmem).2), h.nodup⟩
  · have hlt := h.used b blk hb
    rw [hfree, hsize, hblocks, List.mem_cons, h.mem, Function.update_apply]
    grind
  · rw [hblocks, Function.update_apply] at hb'
    split_ifs at hb'
    exact hsize ▸ h.used b' blk' hb'

theorem Pooled.endEvict {r : Nat} {w : CacheWriter} (h : s.Pooled) (ho : s.Owned) (hm : s.main = .evict r w)
    (hs : s.endEvict r = some s') : s'.Pooled := by
  have halloc : s.alloc = .none := ho.evicting (by rw [hm]; exact Option.some_ne_none r)
  have ht2c : s.t2c.locks = false := by
    cases hl : s.t2c.locks with
    | false => rfl
    | true =>
      have hlock := ho.lock hl
      rw [hm] at hlock
      cases hlock
  obtain ⟨blk, hblk, ⟨-, rfl⟩ | ⟨-, rfl⟩⟩ := endEvict_cases hs
  · exact h.congr rfl rfl (fun _ => Iff.rfl) (fun _ ha => ha) h.freeing
  · refine h.give hblk rfl rfl rfl (fun free ha => ?_) fun b free ht => ?_
    · cases halloc.symm.trans ha
    · rw [show s.t2c = _ from ht] at ht2c
      cases ht2c

theorem Pooled.endFree (h : s.Pooled) (ho : s.Owned) (ha : s.Apart) (hs : s.endFree = some s') : s'.Pooled := by
  obtain ⟨b, free, ht, rfl⟩ := endFree_cases hs
  have hblock : s.t2c.block = some b := by rw [ht]; rfl
  cases hb : s.blocks b with
  | none => exact absurd hblock (ho.free b hb).2.2.1
  | some blk =>
    refine h.give hb (by rw [h.freeing b free ht]) rfl rfl (fun free' ha' => ?_) fun _ _ hf => by cases hf
    exact ha ⟨by rw [show s.alloc = _ from ha']; rfl, by rw [ht]; rfl⟩

theorem Pooled.mainEnd (h : s.Pooled) (ho : s.Owned) (hs : s.mainEnd = some s') : s'.Pooled := by
  rcases mainEnd_cases hs with ⟨r, w, hm, -, hs⟩ | ⟨va, satp, w, hm, -, rfl⟩ | ⟨w, hm, -, rfl⟩ |
    ⟨key, ic, jc, lag, stage, hm, rfl⟩
  · exact h.endEvict ho hm hs
  · refine h.congr rfl rfl (fun _ => Iff.rfl) (fun _ ha => ha) fun b free ht => h.freeing b free ?_
    revert ht
    unfold endFence staleT2c
    cases s.t2c with
    | compiling =>
      intro ht
      cases ht
    | _ => exact id
  · exact h.congr rfl rfl (fun _ => Iff.rfl) (fun _ ha => ha) h.freeing
  · exact h.congr rfl rfl (fun _ => Iff.rfl) (fun _ ha => ha) h.freeing

theorem Pooled.put {key : BitVec 64} {pcEnd : Word} {outcome : PutOutcome} (h : s.Pooled) (ho : s.Owned)
    (hs : s.put key pcEnd outcome = some s') : s'.Pooled := by
  obtain ⟨-, -, b, ha, hs⟩ := put_cases hs
  have hb : s.blocks b ≠ none := fun hb => (ho.free b hb).2.2.2.1 (by rw [ha]; rfl)
  have hupdate := update_none_iff hb { key, pcEnd }
  rcases hs with ⟨-, rfl⟩ | ⟨-, rfl⟩ | ⟨r, blk, -, -, hblk, rfl⟩
  · exact h.congr rfl rfl hupdate (fun _ hf => by cases hf) h.freeing
  · exact h.congr rfl rfl hupdate (fun _ hf => by cases hf) h.freeing
  · have hr : s.blocks r ≠ none := hblk ▸ Option.some_ne_none blk
    exact h.congr rfl rfl (fun b' => (update_none_iff (mt (hupdate r).mp hr) _ b').trans (hupdate b'))
      (fun _ hf => by cases hf) h.freeing

theorem Pooled.publish (h : s.Pooled) (hs : s.publish = some s') : s'.Pooled := by
  have hrelease (b : Nat) (blk : T2cBlock) (b' : Nat) (free : List Nat) (ht : s.release b blk = .freeing b' free) :
      free = s.free := by
    unfold release at ht
    split_ifs at ht
    cases ht
    rfl
  obtain ⟨b, func, blk, -, -, hblk, ⟨-, rfl⟩ | ⟨f, -, rfl⟩ | ⟨f, -, -, -, rfl⟩⟩ := publish_cases hs
  all_goals have hupdate := update_none_iff (hblk ▸ Option.some_ne_none blk : s.blocks b ≠ none)
  · exact h.congr rfl rfl (hupdate _) (fun _ ha => ha) (hrelease b _)
  · exact h.congr rfl rfl (hupdate _) (fun _ ha => ha) (hrelease b _)
  · exact h.congr rfl rfl (hupdate _) (fun _ ha => ha) fun _ _ hf => (by cases hf)

theorem Pooled.step {a : T2cAct} (h : s.Pooled) (ho : s.Owned) (ha : s.Apart) (hs : s.step a = some s') :
    s'.Pooled := by
  cases a with
  | startAlloc =>
    obtain ⟨-, -, rfl⟩ := startAlloc_cases hs
    exact ⟨h.nodup, h.mem, h.used, fun _ hf => (BlockAlloc.taking.inj hf).symm, h.freeing⟩
  | extend => exact h.extend ha hs
  | endAlloc => exact h.endAlloc ha hs
  | fail =>
    obtain ⟨b, -, rfl⟩ := fail_cases hs
    exact h.congr rfl rfl (fun _ => Iff.rfl) (fun _ hf => by cases hf) h.freeing
  | put => exact h.put ho hs
  | fence =>
    obtain ⟨-, -, rfl⟩ := fence_cases hs
    exact h.congr rfl rfl (fun _ => Option.map_eq_none_iff) (fun _ hf => hf) h.freeing
  | flush =>
    obtain ⟨-, rfl⟩ := flush_cases hs
    exact h.congr rfl rfl (fun _ => Iff.rfl) (fun _ hf => hf) h.freeing
  | look =>
    obtain ⟨-, key, ic, jc, rfl⟩ := look_cases hs
    exact h.congr rfl rfl (fun _ => Iff.rfl) (fun _ hf => hf) h.freeing
  | mainStep =>
    rcases mainStep_cases hs with ⟨key, ic, jc, lag, stage, -, rfl⟩ | ⟨w, -, rfl⟩
    all_goals exact h.congr rfl rfl (fun _ => Iff.rfl) (fun _ hf => hf) h.freeing
  | mainEnd => exact h.mainEnd ho hs
  | take =>
    obtain ⟨-, -, -, blk, hblk, rfl | rfl⟩ := take_cases hs
    · exact h
    · exact h.congr rfl rfl (update_none_iff (hblk ▸ Option.some_ne_none blk) _) (fun _ hf => hf)
        fun _ _ hf => (by cases hf)
  | finish =>
    obtain ⟨b, stale, -, rfl | ⟨f, blk, -, -, rfl⟩⟩ := finish_cases hs
    all_goals exact h.congr rfl rfl (fun _ => Iff.rfl) (fun _ hf => hf) fun _ _ hf => by cases hf
  | publish => exact h.publish hs
  | endFree => exact h.endFree ho ha hs
  | t2cStep =>
    obtain ⟨b, w, -, rfl⟩ := t2cStep_cases hs
    exact h.congr rfl rfl (fun _ => Iff.rfl) (fun _ hf => hf) fun _ _ hf => by cases hf
  | endPublish =>
    obtain ⟨b, w, blk, -, -, hblk, rfl⟩ := endPublish_cases hs
    exact h.congr rfl rfl (update_none_iff (hblk ▸ Option.some_ne_none blk) _) (fun _ hf => hf)
      fun _ _ hf => (by cases hf)

/-! ## Runs -/

/-- The states that are reached through states with `P`. -/
inductive Reaches (P : T2cWorld → Prop) : T2cWorld → Prop
  | init (h : P {}) : Reaches P {}
  | step {s s' : T2cWorld} {a : T2cAct} (hr : Reaches P s) (hs : s.step a = some s') (h : P s') : Reaches P s'

theorem Reaches.holds {P : T2cWorld → Prop} (h : Reaches P s) : P s := by
  cases h with
  | init h => exact h
  | step _ _ h => exact h

theorem Reaches.owned {P : T2cWorld → Prop} (hP : ∀ s, P s → s.Unused) (h : Reaches P s) : s.Owned := by
  induction h with
  | init => exact owned_init
  | step hr hs _ ih => exact ih.step (hP _ hr.holds) hs

theorem Reaches.pooled (h : Reaches Apart s) : s.Owned ∧ s.Pooled := by
  induction h with
  | init => exact ⟨owned_init, pooled_init⟩
  | step hr hs _ ih => exact ⟨ih.1.step ih.2.unused hs, ih.2.step ih.1 hr.holds hs⟩

def runIn (p : T2cWorld → Bool) : List T2cAct → T2cWorld → Option T2cWorld
  | [], s => some s
  | a :: acts, s => (s.step a).bind fun s' => if p s' then runIn p acts s' else none

theorem Reaches.run {P : T2cWorld → Prop} {p : T2cWorld → Bool} (hp : ∀ s, p s = true → P s) {l : List T2cAct}
    (h : Reaches P s) (hrun : runIn p l s = some s') : Reaches P s' := by
  induction l generalizing s with
  | nil =>
    cases hrun
    exact h
  | cons a l ih =>
    obtain ⟨s₁, hs, hrun⟩ := Option.bind_eq_some_iff.mp hrun
    split_ifs at hrun with hp₁
    exact ih (h.step hs (hp s₁ hp₁)) hrun

/-- The steps after which nobody will free the element: `block_translate` fails, or `cache_put` finds no memory. -/
def loses : T2cAct → Bool
  | .fail | .put _ _ .failed => true
  | _ => false

theorem lost_step {a : T2cAct} (hs : s.step a = some s') :
    s'.lost.length = s.lost.length + if loses a then 1 else 0 := by
  cases a with
  | startAlloc =>
    obtain ⟨-, -, rfl⟩ := startAlloc_cases hs
    rfl
  | extend =>
    obtain ⟨-, rfl⟩ := extend_cases hs
    rfl
  | endAlloc => rcases endAlloc_cases hs with ⟨-, rfl⟩ | ⟨b, free, -, rfl⟩ <;> rfl
  | fail =>
    obtain ⟨b, -, rfl⟩ := fail_cases hs
    rfl
  | put key pcEnd outcome =>
    obtain ⟨-, -, b, -, ⟨rfl, rfl⟩ | ⟨rfl, rfl⟩ | ⟨r, blk, rfl, -, -, rfl⟩⟩ := put_cases hs <;> rfl
  | fence =>
    obtain ⟨-, -, rfl⟩ := fence_cases hs
    rfl
  | flush =>
    obtain ⟨-, rfl⟩ := flush_cases hs
    rfl
  | look =>
    obtain ⟨-, key, ic, jc, rfl⟩ := look_cases hs
    rfl
  | mainStep => rcases mainStep_cases hs with ⟨key, ic, jc, lag, stage, -, rfl⟩ | ⟨w, -, rfl⟩ <;> rfl
  | mainEnd =>
    rcases mainEnd_cases hs with ⟨r, w, -, -, hs⟩ | ⟨va, satp, w, -, -, rfl⟩ | ⟨w, -, -, rfl⟩ |
      ⟨key, ic, jc, lag, stage, -, rfl⟩
    · obtain ⟨blk, -, ⟨-, rfl⟩ | ⟨-, rfl⟩⟩ := endEvict_cases hs <;> rfl
    all_goals rfl
  | take => obtain ⟨-, -, -, blk, -, rfl | rfl⟩ := take_cases hs <;> rfl
  | finish => obtain ⟨b, stale, -, rfl | ⟨f, blk, -, -, rfl⟩⟩ := finish_cases hs <;> rfl
  | publish =>
    obtain ⟨b, func, blk, -, -, -, ⟨-, rfl⟩ | ⟨f, -, rfl⟩ | ⟨f, -, -, -, rfl⟩⟩ := publish_cases hs <;> rfl
  | endFree =>
    obtain ⟨b, free, -, rfl⟩ := endFree_cases hs
    rfl
  | t2cStep =>
    obtain ⟨b, w, -, rfl⟩ := t2cStep_cases hs
    rfl
  | endPublish =>
    obtain ⟨b, w, blk, -, -, -, rfl⟩ := endPublish_cases hs
    rfl

theorem lost_run {p : T2cWorld → Bool} {acts : List T2cAct} (h : runIn p acts s = some s') :
    s'.lost.length = s.lost.length + acts.countP loses := by
  induction acts generalizing s with
  | nil =>
    cases h
    rfl
  | cons a acts ih =>
    obtain ⟨s₁, hs, h⟩ := Option.bind_eq_some_iff.mp h
    split_ifs at h
    rw [ih h, lost_step hs, List.countP_cons]
    omega

def isApart (s : T2cWorld) : Bool := !(s.alloc.takes && s.t2c.frees)

theorem apart_of_isApart (s : T2cWorld) (h : s.isApart = true) : s.Apart := by
  rintro ⟨htakes, hfrees⟩
  rw [isApart, htakes, hfrees] at h
  cases h

/-- **Blocks.** In whatever order the two threads take their steps, as long as `mpool_alloc` and `mpool_free` are not
at work at once: an element of `block_mp` is allocated exactly while it is being translated, is in the cache, is being
evicted or is the T2C thread's, or it has been lost; the list has each of the others once, so that no element is used
after it was freed, and none is freed twice. A lost element has no user, and just one is lost whenever
`block_translate` fails or `cache_put` finds no memory. The block the T2C thread works on has left the cache exactly if
it is marked for that thread to free, and the two threads never hold `cache_lock` at once. -/
theorem block_owned {acts : List T2cAct} (h : runIn isApart acts {} = some s) :
    (∀ b, (s.blocks b).isSome ↔ s.alloc.block = some b ∨ s.cached b = true ∨ s.main.evicted = some b ∨
        s.t2c.block = some b ∨ b ∈ s.lost) ∧
      s.free.Nodup ∧ (∀ b, b ∈ s.free ↔ b < s.size ∧ s.blocks b = none) ∧
      (∀ b ∈ s.lost, s.alloc.block ≠ some b ∧ s.cached b = false ∧ s.main.evicted ≠ some b ∧ s.t2c.block ≠ some b) ∧
      s.lost.Nodup ∧ s.lost.length = acts.countP loses ∧
      (∀ b blk, s.blocks b = some blk → (blk.shouldFree = true ↔ s.cached b = false ∧ s.t2c.block = some b)) ∧
      ¬ (s.main.locks = true ∧ s.t2c.locks = true) := by
  have hinit : Apart {} := fun hboth => Bool.false_ne_true hboth.1
  obtain ⟨ho, hp⟩ := ((Reaches.init hinit).run apart_of_isApart h).pooled
  have hlost := lost_run h
  obtain ⟨h1, h2, h3, h4, h5, h6, h7, h8, h9, h10, h11, h12, h13, h14⟩ := ho
  refine ⟨fun b => ?_, hp.nodup, hp.mem, fun b hb => ?_, h13, by simpa using hlost, fun b blk hb => ?_, ?_⟩
  · cases hb : s.blocks b <;> grind -ring -linarith
  · exact ⟨fun ha => (h11 b ha).2.2.2 hb, h12 b hb⟩
  · grind -ring -linarith
  · grind -ring -linarith

/-- Block 0 is replaced while the T2C thread compiles it; a translation fails in between. -/
def evictActs : List T2cAct :=
  [.startAlloc, .extend 4, .endAlloc, .put 4 8 .added, .take 0, .startAlloc, .endAlloc, .fail, .startAlloc, .endAlloc,
    .put 8 12 (.replaced 0), .mainEnd, .finish none, .publish, .endFree]

theorem block_owned_evicted : ∃ s, runIn isApart evictActs {} = some s ∧ s.blocks 0 = none ∧ 0 ∈ s.free ∧
    s.lost.length = 1 := by
  have hrun : (runIn isApart evictActs {}).any (fun s => (s.blocks 0).isNone && s.size == 4) = true := by
    decide +kernel
  obtain ⟨s, hs, hend⟩ := (Option.any_eq_true _ _).mp hrun
  obtain ⟨hnone, hsize⟩ := Bool.and_eq_true_iff.mp hend
  have hblock := Option.isNone_iff_eq_none.mp hnone
  obtain ⟨-, -, hfree, -, -, hlost, -⟩ := block_owned hs
  exact ⟨s, hs, hblock, (hfree 0).mpr ⟨by rw [eq_of_beq hsize]; decide, hblock⟩, hlost⟩

/-- When the two calls overlap, an element that is allocated gets back into the list. -/
example : (runIn (fun _ => true) [.startAlloc, .extend 3, .endAlloc, .put 4 8 .added, .take 0, .startAlloc, .endAlloc,
    .put 8 12 (.replaced 0), .mainEnd, .finish none, .publish, .startAlloc, .endAlloc, .endFree] {}).any
    (fun s => s.alloc.block == some 2 && s.free.contains 2) = true := by
  decide +kernel

end T2cWorld

end Rv32emu
