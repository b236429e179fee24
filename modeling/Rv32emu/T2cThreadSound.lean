import Rv32emu.T2cBlocks

/-!
# Tier-2 code is entered while it is alive

Invariants of `T2cWorld`, over any order of the two threads' steps.

* `CacheWriter.Inv` : the elements of `jit_cache` beside one writer, each of which is a `Seqlock.Cell`;
* `T2cWorld.Coded` : the engines behind `block->func` and behind the T2C thread;
* `T2cWorld.Inv` : the two caches, and what a lookup knows between its loads;
* `entered_code` : what is called was published under its own key, is not disposed, and no fence has covered it since.
-/

namespace Rv32emu

open Seqlock

/-! ## The elements of `jit_cache` -/

def CodeSlot.cell (c : CodeSlot) : Cell 32 (BitVec 64 × Option Word) := ⟨c.seq, c.key, c.entry⟩

theorem CodeSlot.even_succ {c : CodeSlot} {seq : Word} (hseq : c.seq = seq + 1) (h : seq.toNat % 2 = 0) :
    ¬ c.cell.Even := by
  have hodd := Cell.even_mark (by decide) ({ seq, data := () } : Cell 32 Unit)
  unfold Cell.Even at hodd ⊢
  change ¬ c.seq.toNat % 2 = 0
  rw [hseq]
  exact fun hc => hodd.mp hc h

namespace CacheWriter

/-- The writer has made the sequence number of element `i` odd. -/
def Open (w : CacheWriter) (i : BitVec 64) : Prop :=
  w.todo.head? = some i ∧
    match w.stage with
    | .entry _ | .key _ | .close _ => True
    | _ => False

/-- What the writer knows of the element at hand. -/
def Held (op : JitCacheOp) (c : CodeSlot) : WriteStage → Prop
  | .visit | .load => True
  | .mark seq => c.seq = seq
  | .entry seq => c.seq = seq + 1 ∧ seq.toNat % 2 = 0
  | .key seq => c.seq = seq + 1 ∧ seq.toNat % 2 = 0 ∧ c.entry = op.entry
  | .close seq => c.seq = seq + 1 ∧ seq.toNat % 2 = 0 ∧ c.entry = op.entry ∧ c.key = op.key

/-- The elements beside one writer: `G i key func` holds of what an element shows while nobody writes it. -/
structure Inv (G : BitVec 64 → BitVec 64 → Word → Prop) (cache : CodeTab) (w : CacheWriter) : Prop where
  pairs : ∀ i func, (cache i).cell.Even → (cache i).entry = some func → G i (cache i).key func
  even : ∀ i, ¬ w.Open i → (cache i).cell.Even
  held : ∀ i, w.todo.head? = some i → Held w.op (cache i) w.stage
  op : ∀ i ∈ w.todo, ∀ func, w.op.entry = some func → G i w.op.key func

variable {G G' : BitVec 64 → BitVec 64 → Word → Prop} {cache : CodeTab} {w w' : CacheWriter}

theorem step_op (cache : CodeTab) (w : CacheWriter) : (w.step cache).2.op = w.op := by
  obtain ⟨op, todo, stage⟩ := w
  cases todo with
  | nil => rfl
  | cons i rest =>
    cases stage with
    | visit =>
      simp only [step]
      split <;> rfl
    | _ => rfl

theorem Inv.store (h : w.Inv G cache) (i : BitVec 64) :
    Cell.Store (cache i).cell (if ((w.step cache).1 i).seq = (cache i).seq then 0 else 1)
      ((w.step cache).1 i).cell := by
  obtain ⟨op, todo, stage⟩ := w
  have hnone : Cell.Store (cache i).cell (if (cache i).seq = (cache i).seq then 0 else 1) (cache i).cell := by
    rw [if_pos rfl]
    exact .none _
  cases todo with
  | nil => exact hnone
  | cons j rest =>
    have hheld := h.held j rfl
    by_cases hij : i = j
    · subst hij
      have hone (x : Word) : x + 1 ≠ x := by bv_omega
      cases stage with
      | visit => exact hnone
      | load => exact hnone
      | mark seq =>
        have hseq : (cache i).seq = seq := hheld
        simp only [step, Function.update_self, ← hseq, if_neg (hone _)]
        exact .mark _
      | entry seq =>
        simp only [step, Function.update_self, if_true]
        exact .put (cache i).cell ((cache i).key, op.entry) (CodeSlot.even_succ hheld.1 hheld.2)
      | key seq =>
        simp only [step, Function.update_self, if_true]
        exact .put (cache i).cell (op.key, (cache i).entry) (CodeSlot.even_succ hheld.1 hheld.2.1)
      | close seq =>
        have htwo : seq + 2 = (cache i).seq + 1 := by
          rw [hheld.1]
          bv_omega
        simp only [step, Function.update_self, htwo, if_neg (hone _)]
        exact .mark _
    · cases stage with
      | visit => exact hnone
      | load => exact hnone
      | _ =>
        simp only [step, Function.update_of_ne hij, if_true]
        exact .none _

/-- The element at hand gets a value `c` with an odd sequence number. -/
theorem Inv.write_odd {op : JitCacheOp} {j : BitVec 64} {rest : List (BitVec 64)} {stage stage' : WriteStage}
    {c : CodeSlot} (h : Inv G cache { op, todo := j :: rest, stage }) (hodd : ¬ c.cell.Even)
    (hopen : Open { op, todo := j :: rest, stage := stage' } j) (hheld : Held op c stage') :
    Inv G (Function.update cache j c) { op, todo := j :: rest, stage := stage' } := by
  refine ⟨fun i f hi => ?_, fun i hi => ?_, fun i hi => ?_, h.op⟩
  · by_cases hij : i = j
    · subst hij
      rw [Function.update_self] at hi
      exact absurd hi hodd
    · rw [Function.update_of_ne hij] at hi ⊢
      exact h.pairs i f hi
  · have hij : i ≠ j := fun hij => hi (hij ▸ hopen)
    rw [Function.update_of_ne hij]
    exact h.even i fun ho => hij (Option.some.inj ho.1).symm
  · cases hi
    rw [Function.update_self]
    exact hheld

/-- The writer has not touched the element at hand and goes on. -/
theorem Inv.go_on {op : JitCacheOp} {j : BitVec 64} {rest todo : List (BitVec 64)} {stage stage' : WriteStage}
    (h : Inv G cache { op, todo := j :: rest, stage }) (hclosed : ¬ Open { op, todo := j :: rest, stage } j)
    (htodo : ∀ i ∈ todo, i ∈ j :: rest) (hheld : ∀ i, todo.head? = some i → Held op (cache i) stage') :
    Inv G cache { op, todo, stage := stage' } := by
  refine ⟨h.pairs, fun i _ => h.even i fun ho => ?_, hheld, fun i hi => h.op i (htodo i hi)⟩
  cases ho.1
  exact hclosed ho

theorem Inv.step (h : w.Inv G cache) : (w.step cache).2.Inv G (w.step cache).1 := by
  obtain ⟨op, todo, stage⟩ := w
  cases todo with
  | nil => exact h
  | cons j rest =>
    have hj := h.held j rfl
    cases stage with
    | visit =>
      by_cases hit : op.hits (cache j).key = true
      · simp only [CacheWriter.step, if_pos hit]
        exact h.go_on And.right (fun i hi => hi) fun i _ => trivial
      · simp only [CacheWriter.step, if_neg hit]
        exact h.go_on And.right (fun i hi => List.mem_cons_of_mem j hi) fun i _ => trivial
    | load =>
      simp only [CacheWriter.step]
      refine h.go_on And.right (fun i hi => hi) fun i hi => ?_
      cases hi
      exact rfl
    | mark seq =>
      have hseq : (cache j).seq = seq := hj
      have heven : seq.toNat % 2 = 0 := hseq ▸ h.even j And.right
      exact h.write_odd (CodeSlot.even_succ rfl heven) ⟨rfl, trivial⟩ ⟨rfl, heven⟩
    | entry seq => exact h.write_odd (CodeSlot.even_succ hj.1 hj.2) ⟨rfl, trivial⟩ ⟨hj.1, hj.2, rfl⟩
    | key seq => exact h.write_odd (CodeSlot.even_succ hj.1 hj.2.1) ⟨rfl, trivial⟩ ⟨hj.1, hj.2.1, hj.2.2, rfl⟩
    | close seq =>
      obtain ⟨-, heven, hentry, hkey⟩ := hj
      simp only [CacheWriter.step]
      refine ⟨fun i f hi => ?_, fun i _ => ?_, fun i _ => trivial, fun i hi => h.op i (List.mem_cons_of_mem j hi)⟩
      · by_cases hij : i = j
        · subst hij
          rw [Function.update_self] at hi ⊢
          intro hf
          change G i (cache i).key f
          rw [hkey]
          exact h.op i List.mem_cons_self f (hentry.symm.trans hf)
        · rw [Function.update_of_ne hij] at hi ⊢
          exact h.pairs i f hi
      · by_cases hij : i = j
        · subst hij
          rw [Function.update_self]
          exact even_add_two heven
        · rw [Function.update_of_ne hij]
          exact h.even i fun ho => hij (Option.some.inj ho.1).symm

/-- What an element shows may be described otherwise. -/
theorem Inv.imp (h : w.Inv G cache) (hpairs : ∀ i func, (cache i).entry = some func → G i (cache i).key func →
      G' i (cache i).key func)
    (hop : ∀ i ∈ w.todo, ∀ func, w.op.entry = some func → G' i w.op.key func) : w.Inv G' cache :=
  ⟨fun i f hi hf => hpairs i f hf (h.pairs i f hi hf), h.even, h.held, hop⟩

/-- A writer that is done leaves the elements to the next one. -/
theorem Inv.next (h : w.Inv G cache) (hdone : w.todo = []) (hstage : w'.stage = .visit)
    (hop : ∀ i ∈ w'.todo, ∀ func, w'.op.entry = some func → G i w'.op.key func) : w'.Inv G cache := by
  refine ⟨h.pairs, fun i _ => h.even i fun ho => ?_, fun i _ => ?_, hop⟩
  · rw [Open, hdone] at ho
    cases ho.1
  · rw [hstage]
    trivial

/-- The elements behind the writer are as the operation leaves them. -/
def Left (cache : CodeTab) (w : CacheWriter) : Prop :=
  ∀ i ∈ w.op.slots, i ∉ w.todo →
    w.op.hits (cache i).key = false ∨ (cache i).key = w.op.key ∧ (cache i).entry = w.op.entry

theorem left_start (cache : CodeTab) (op : JitCacheOp) : (start op).Left cache := fun _ hi hn => absurd hi hn

theorem Left.step (h : w.Left cache) (hinv : w.Inv G cache) : (w.step cache).2.Left (w.step cache).1 := by
  obtain ⟨op, todo, stage⟩ := w
  cases todo with
  | nil => exact h
  | cons j rest =>
    have hj := hinv.held j rfl
    -- the element at hand may change, the ones behind the writer do not
    have hrest {c : CodeSlot} {stage' : WriteStage} :
        Left (Function.update cache j c) { op, todo := j :: rest, stage := stage' } := by
      intro i hi hn
      have hij : i ≠ j := by
        rintro rfl
        exact hn List.mem_cons_self
      rw [Function.update_of_ne hij]
      exact h i hi hn
    -- the next one if the element at hand is as it should be
    have hnext {c : CodeSlot} (hc : op.hits c.key = false ∨ c.key = op.key ∧ c.entry = op.entry) :
        Left (Function.update cache j c) { op, todo := rest } := by
      intro i hi hn
      by_cases hij : i = j
      · rw [hij, Function.update_self]
        exact hc
      · rw [Function.update_of_ne hij]
        exact h i hi fun hm => (List.mem_cons.mp hm).elim hij hn
    cases stage with
    | visit =>
      by_cases hit : op.hits (cache j).key = true
      · simp only [CacheWriter.step, if_pos hit]
        exact h
      · simp only [CacheWriter.step, if_neg hit]
        have hskip := hnext (c := cache j) (.inl (Bool.eq_false_iff.mpr hit))
        rwa [Function.update_eq_self] at hskip
    | load => exact h
    | mark seq => exact hrest
    | entry seq => exact hrest
    | key seq => exact hrest
    | close seq => exact hnext (.inr ⟨hj.2.2.2, hj.2.2.1⟩)

end CacheWriter

/-! ## The engines behind the blocks -/

namespace T2cWorld

variable {s s' : T2cWorld}

/-- The function is in an engine made for the key, which no fence has covered since, if `valid` holds. -/
def Backs (s : T2cWorld) (key : BitVec 64) (func : Word) (shared : Bool) (valid : Prop) : Prop :=
  ∃ e, s.engines func = some e ∧ e.key = key ∧ e.shared = shared ∧ (valid → e.stale = false)

/-- The function belongs to a block with this key, its engine has not been disposed, and no fence has covered the key
since the block was traced. -/
def Fresh (s : T2cWorld) (key : BitVec 64) (func : Word) : Prop := s.Backs key func true True

theorem Backs.congr {key : BitVec 64} {func : Word} {shared : Bool} {valid valid' : Prop}
    (h : s.Backs key func shared valid) (he : s'.engines func = s.engines func) (hv : valid' → valid) :
    s'.Backs key func shared valid' := by
  obtain ⟨e, hf, hkey, hshared, hstale⟩ := h
  exact ⟨e, he.trans hf, hkey, hshared, hstale ∘ hv⟩

theorem Backs.ne {key key' : BitVec 64} {func func' : Word} {valid valid' : Prop}
    (h : s.Backs key func true valid) (h' : s.Backs key' func' false valid') : func ≠ func' := by
  rintro rfl
  obtain ⟨e, hf, -, hshared, -⟩ := h
  obtain ⟨e', hf', -, hshared', -⟩ := h'
  cases hf.symm.trans hf'
  exact absurd (hshared.symm.trans hshared') (by decide)

theorem Backs.key_eq {key key' : BitVec 64} {func : Word} {shared shared' : Bool} {valid valid' : Prop}
    (h : s.Backs key func shared valid) (h' : s.Backs key' func shared' valid') : key = key' := by
  obtain ⟨e, hf, hkey, -⟩ := h
  obtain ⟨e', hf', hkey', -⟩ := h'
  cases hf.symm.trans hf'
  exact hkey.symm.trans hkey'

theorem Backs.ne_free {key : BitVec 64} {func func' : Word} {shared : Bool} {valid : Prop}
    (h : s.Backs key func shared valid) (h' : s.engines func' = none) : func ≠ func' := by
  rintro rfl
  obtain ⟨e, hf, -⟩ := h
  cases hf.symm.trans h'

/-- The blocks, the two threads and the engines; the blocks that may still be entered are the cached ones that no
fence has covered. -/
structure Coded (s : T2cWorld) : Prop where
  engine : ∀ b blk f, s.blocks b = some blk → blk.func = some f →
    s.Backs blk.key f true (s.cached b = true ∧ blk.invalidated = false)
  inj : ∀ b₁ blk₁ b₂ blk₂ f, s.blocks b₁ = some blk₁ → s.blocks b₂ = some blk₂ → blk₁.func = some f →
    blk₂.func = some f → b₁ = b₂
  hot : ∀ b blk, s.blocks b = some blk → blk.hot2 = true → blk.func ≠ none
  compiling : ∀ b stale blk, s.t2c = .compiling b stale → s.blocks b = some blk → s.cached b = true →
    blk.invalidated = false → stale = false
  compiled : ∀ b f blk, s.t2c = .compiled b (some f) → s.blocks b = some blk →
    s.Backs blk.key f false (s.cached b = true ∧ blk.invalidated = false)
  publishing : ∀ b w blk, s.t2c = .publishing b w → s.blocks b = some blk →
    blk.func ≠ none ∧ blk.invalidated = false ∧ w.op = .update blk.key blk.func
  fencing : ∀ va satp w b blk, s.main = .fence va satp w → s.blocks b = some blk → s.cached b = true →
    fenceCovers va satp blk.key = true → blk.invalidated = true
  fencingOp : ∀ va satp w, s.main = .fence va satp w → w.op = fenceOp va satp
  evictingOp : ∀ r w blk, s.main = .evict r w → s.blocks r = some blk → w.op = .update blk.key none

theorem T2cBlock.withdraw_op (blk : T2cBlock) : blk.withdraw.op = .update blk.key none := by
  unfold T2cBlock.withdraw
  split <;> rfl

/-- The pool, the allocation and the tables do not matter. -/
theorem Coded.congr (h : s.Coded) (hblocks : s'.blocks = s.blocks) (hcached : s'.cached = s.cached)
    (hengines : s'.engines = s.engines) (hmain : s'.main = s.main) (ht2c : s'.t2c = s.t2c) : s'.Coded := by
  obtain ⟨h1, h2, h3, h4, h5, h6, h7, h8, h9⟩ := h
  constructor
  all_goals simp only [hblocks, hcached, hmain, ht2c, Backs, hengines]
  all_goals assumption

theorem Coded.endAlloc (h : s.Coded) (ho : s.Owned) (hu : s.Unused) (hs : s.endAlloc = some s') : s'.Coded := by
  rcases endAlloc_cases hs with ⟨-, rfl⟩ | ⟨b, free, ha, rfl⟩
  · exact h.congr rfl rfl rfl rfl rfl
  · obtain ⟨h1, h2, h3, h4, h5, h6, h7, h8, h9⟩ := h
    obtain ⟨hc, hm, ht, -⟩ := ho.free b (hu b free ha)
    clear hs
    constructor
    all_goals simp only [Function.update_apply]
    all_goals grind -ring -linarith [Backs]

theorem Coded.put {key : BitVec 64} {pcEnd : Word} {outcome : PutOutcome} (h : s.Coded) (ho : s.Owned)
    (hs : s.put key pcEnd outcome = some s') : s'.Coded := by
  obtain ⟨h1, h2, h3, h4, h5, h6, h7, h8, h9⟩ := h
  obtain ⟨hm, hlock, b, ha, hs'⟩ := put_cases hs
  obtain ⟨hb, -, ht, -⟩ := ho.fresh b (by rw [ha]; rfl)
  rcases hs' with ⟨-, rfl⟩ | ⟨-, rfl⟩ | ⟨r, blk, -, hr, hblk, rfl⟩
  all_goals
    clear hs
    constructor
    all_goals simp only [Function.update_apply]
    all_goals grind -ring -linarith [T2cBlock.withdraw_op, Backs]

theorem Coded.endEvict {r : Nat} {w : CacheWriter} (h : s.Coded) (ho : s.Owned) (hm : s.main = .evict r w)
    (hs : s.endEvict r = some s') : s'.Coded := by
  obtain ⟨h1, h2, h3, h4, h5, h6, h7, h8, h9⟩ := h
  obtain ⟨o1, o2, o3, o4, o5, o6, o7, o8, -⟩ := ho
  obtain ⟨blk, hblk, ⟨hc, rfl⟩ | ⟨hc, rfl⟩⟩ := endEvict_cases hs
  · clear hs
    constructor
    all_goals grind -ring -linarith [Backs]
  · clear hs
    -- no other block has the function, nor does the T2C thread
    have hne {key : BitVec 64} {f : Word} {shared : Bool} {valid : Prop} (hb : s.Backs key f shared valid)
        (hf : blk.func ≠ some f) : s.disposed blk.func f = s.engines f := by
      unfold disposed
      cases hg : blk.func with
      | none => rfl
      | some g => exact Function.update_of_ne (fun hfg => hf (hg.trans (congrArg some hfg.symm))) _ _
    constructor
    · intro b blk' f hb hf
      simp only [Function.update_apply] at hb
      split_ifs at hb with hbr
      have hback := h1 b blk' f hb hf
      exact hback.congr (hne hback fun hg => hbr (h2 b blk' r blk f hb hblk hf hg)) id
    · simp only [Function.update_apply]
      grind -ring -linarith
    · simp only [Function.update_apply]
      grind -ring -linarith
    · simp only [Function.update_apply]
      grind -ring -linarith
    · intro b f blk' ht hb
      simp only [Function.update_apply] at hb
      split_ifs at hb with hbr
      have hback := h5 b f blk' ht hb
      exact hback.congr (hne hback fun hg => (h1 r blk f hblk hg).ne hback rfl) id
    all_goals simp only [Function.update_apply]
    all_goals grind -ring -linarith

theorem covered_of_fenceCovers {blk : T2cBlock} {va : Option Word} {satp : Word} (scan : Bool)
    (h : fenceCovers va satp blk.key = true) : blk.covered va satp scan = true := by
  rw [T2cBlock.covered, h]
  rfl

theorem Coded.fence {va : Option Word} {satp : Word} {scan : Bool} (h : s.Coded)
    (hs : s.fence va satp scan = some s') : s'.Coded := by
  obtain ⟨h1, h2, h3, h4, h5, h6, h7, h8, h9⟩ := h
  obtain ⟨hm, hlock, rfl⟩ := fence_cases hs
  clear hs
  constructor
  all_goals simp only [fenced, Option.map_eq_some_iff]
  all_goals grind -ring -linarith [CacheWriter.start, Backs, covered_of_fenceCovers]

/-- A fence makes an engine stale if it covers the key. -/
theorem Backs.endFence {key : BitVec 64} {func : Word} {shared : Bool} {valid valid' : Prop} {va : Option Word}
    {satp : Word} (h : s.Backs key func shared valid) (hv : valid' → valid)
    (hcovers : valid' → fenceCovers va satp key = false) : (s.endFence va satp).Backs key func shared valid' := by
  obtain ⟨e, hf, hkey, hshared, hstale⟩ := h
  refine ⟨{ e with stale := e.stale || fenceCovers va satp e.key }, ?_, hkey, hshared, fun hvalid => ?_⟩
  · change (s.engines func).map _ = _
    rw [hf]
    rfl
  · change (e.stale || fenceCovers va satp e.key) = false
    rw [hstale (hv hvalid), hkey, hcovers hvalid]
    rfl

theorem Coded.endFence {va : Option Word} {satp : Word} {w : CacheWriter} (h : s.Coded)
    (hm : s.main = .fence va satp w) : (s.endFence va satp).Coded := by
  have huncovered {b : Nat} {blk : T2cBlock} (hb : s.blocks b = some blk)
      (hv : s.cached b = true ∧ blk.invalidated = false) : fenceCovers va satp blk.key = false := by
    by_contra hc
    have := h.fencing va satp w b blk hm hb hv.1 (Bool.eq_true_of_not_eq_false hc)
    exact absurd (this.symm.trans hv.2) (by decide)
  constructor
  · exact fun b blk f hb hf => (h.engine b blk f hb hf).endFence id (huncovered hb)
  · exact h.inj
  · exact h.hot
  · intro b stale blk ht hb hc hi
    simp only [T2cWorld.endFence, staleT2c] at ht hb
    split at ht
    next b' stale' ht' =>
      obtain ⟨rfl, rfl⟩ := T2cThread.compiling.inj ht
      rw [hb, h.compiling b' stale' blk ht' hb hc hi, Option.map_some, huncovered hb ⟨hc, hi⟩]
      rfl
    next hne => exact absurd ht (hne b stale)
  · intro b f blk ht hb
    have ht' : s.t2c = .compiled b (some f) := by
      simp only [T2cWorld.endFence, staleT2c] at ht
      split at ht
      · cases ht
      · exact ht
    exact (h.compiled b f blk ht' hb).endFence id (huncovered hb)
  · intro b w blk ht hb
    have ht' : s.t2c = .publishing b w := by
      simp only [T2cWorld.endFence, staleT2c] at ht
      split at ht
      · cases ht
      · exact ht
    exact h.publishing b w blk ht' hb
  · exact fun _ _ _ _ _ hm => by cases hm
  · exact fun _ _ _ hm => by cases hm
  · exact fun _ _ _ hm => by cases hm

theorem Coded.take {b : Nat} (h : s.Coded) (hs : s.take b = some s') : s'.Coded := by
  obtain ⟨hidle, hlock, hc, blk, hblk, rfl | rfl⟩ := take_cases hs
  · exact h
  · obtain ⟨h1, h2, h3, h4, h5, h6, h7, h8, h9⟩ := h
    clear hs
    constructor
    all_goals simp only [Function.update_apply]
    all_goals grind -ring -linarith [Backs]

theorem Coded.finish {func : Option Word} (h : s.Coded) (hs : s.finish func = some s') : s'.Coded := by
  obtain ⟨h1, h2, h3, h4, h5, h6, h7, h8, h9⟩ := h
  obtain ⟨b, stale, ht, rfl | ⟨f, blk, hf, hblk, rfl⟩⟩ := finish_cases hs
  · clear hs
    constructor
    all_goals grind -ring -linarith [Backs]
  · clear hs
    constructor
    · intro b' blk' f' hb hf'
      have hback := h1 b' blk' f' hb hf'
      exact hback.congr (Function.update_of_ne (hback.ne_free hf) _ _) id
    · exact h2
    · exact h3
    · exact fun _ _ _ hc => by cases hc
    · intro b' f' blk' ht' hb
      cases ht'
      cases hblk.symm.trans hb
      exact ⟨_, Function.update_self .., rfl, rfl, fun hv => h4 b stale blk ht hblk hv.1 hv.2⟩
    · exact fun _ _ _ hc => by cases hc
    · exact h7
    · exact h8
    · exact h9

theorem release_cases (s : T2cWorld) (b : Nat) (blk : T2cBlock) :
    (∀ b' stale, s.release b blk ≠ .compiling b' stale) ∧ (∀ b' func, s.release b blk ≠ .compiled b' func) ∧
      ∀ b' w, s.release b blk ≠ .publishing b' w := by
  unfold release
  split_ifs
  all_goals exact ⟨fun _ _ h => (by cases h), fun _ _ h => (by cases h), fun _ _ h => by cases h⟩

/-- The engine that the T2C thread disposes belongs to no block. -/
theorem Coded.discard {b : Nat} {f : Word} {blk : T2cBlock} (h : s.Coded) (ht : s.t2c = .compiled b (some f))
    (hblk : s.blocks b = some blk) : Coded { s with
      blocks := Function.update s.blocks b (some { blk with isCompiling := false })
      engines := Function.update s.engines f none
      t2c := s.release b blk } := by
  have hown := h.compiled b f blk ht hblk
  have hkept {b' : Nat} {blk' : T2cBlock}
      (hb : Function.update s.blocks b (some { blk with isCompiling := false }) b' = some blk') :
      ∃ old, s.blocks b' = some old ∧ blk'.key = old.key ∧ blk'.func = old.func ∧ blk'.hot2 = old.hot2 ∧
        blk'.invalidated = old.invalidated := by
    rw [Function.update_apply] at hb
    split_ifs at hb with hbb
    · cases hb
      exact ⟨blk, hbb ▸ hblk, rfl, rfl, rfl, rfl⟩
    · exact ⟨blk', hb, rfl, rfl, rfl, rfl⟩
  have hrest := s.release_cases b blk
  refine ⟨fun b' blk' f' hb hf' => ?_, fun b₁ blk₁ b₂ blk₂ f' hb₁ hb₂ hf₁ hf₂ => ?_, fun b' blk' hb hhot => ?_,
    fun b' stale _ hc => absurd hc (hrest.1 b' stale), fun b' f' _ hc => absurd hc (hrest.2.1 b' (some f')),
    fun b' w _ hc => absurd hc (hrest.2.2 b' w), fun va satp w b' blk' hm hb hc hcov => ?_, h.fencingOp,
    fun r w blk' hm hb => ?_⟩
  · obtain ⟨old, hold, hkey, hfunc, -, hinv⟩ := hkept hb
    have hback := h.engine b' old f' hold (hfunc.symm.trans hf')
    rw [hkey, hinv]
    exact hback.congr (Function.update_of_ne (hback.ne hown) _ _) id
  · obtain ⟨old₁, hold₁, -, hfunc₁, -⟩ := hkept hb₁
    obtain ⟨old₂, hold₂, -, hfunc₂, -⟩ := hkept hb₂
    exact h.inj b₁ old₁ b₂ old₂ f' hold₁ hold₂ (hfunc₁.symm.trans hf₁) (hfunc₂.symm.trans hf₂)
  · obtain ⟨old, hold, -, hfunc, hhot', -⟩ := hkept hb
    rw [hfunc]
    exact h.hot b' old hold (hhot'.symm.trans hhot)
  · obtain ⟨old, hold, hkey, -, -, hinv⟩ := hkept hb
    rw [hinv]
    exact h.fencing va satp w b' old hm hold hc (hkey ▸ hcov)
  · obtain ⟨old, hold, hkey, -⟩ := hkept hb
    rw [hkey]
    exact h.evictingOp r w old hm hold

/-- The block gets the engine, which no other block has. -/
theorem Coded.share {b : Nat} {f : Word} {blk : T2cBlock} (h : s.Coded) (ht : s.t2c = .compiled b (some f))
    (hlock : s.main.locks = false) (hblk : s.blocks b = some blk) (hinv : blk.invalidated = false) : Coded { s with
      blocks := Function.update s.blocks b (some { blk with isCompiling := false, func := some f })
      engines := Function.update s.engines f ((s.engines f).map fun e => { e with shared := true })
      t2c := .publishing b (.start (.update blk.key (some f))) } := by
  have hown := h.compiled b f blk ht hblk
  have hshared : Backs { s with
      engines := Function.update s.engines f ((s.engines f).map fun e => { e with shared := true }) } blk.key f true
      (s.cached b = true ∧ blk.invalidated = false) := by
    obtain ⟨e, he, hkey, -, hstale⟩ := hown
    exact ⟨{ e with shared := true }, (Function.update_self ..).trans (congrArg _ he), hkey, rfl, hstale⟩
  obtain ⟨h1, h2, h3, h4, h5, h6, h7, h8, h9⟩ := h
  have hno (b' : Nat) (blk' : T2cBlock) (hb : s.blocks b' = some blk') : blk'.func ≠ some f :=
    fun hf' => (h1 b' blk' f hb hf').ne hown rfl
  constructor
  · intro b' blk' f' hb hf'
    simp only [Function.update_apply] at hb
    split_ifs at hb with hbb
    · cases hb
      cases hf'
      subst hbb
      exact hshared
    · have hback := h1 b' blk' f' hb hf'
      exact hback.congr (Function.update_of_ne (hback.ne hown) _ _) id
  all_goals simp only [Function.update_apply]
  all_goals grind -ring -linarith [CacheWriter.start]

theorem Coded.publish (h : s.Coded) (hs : s.publish = some s') : s'.Coded := by
  obtain ⟨b, func, blk, ht, hlock, hblk, ⟨rfl, rfl⟩ | ⟨f, rfl, rfl⟩ | ⟨f, rfl, -, hinv, rfl⟩⟩ := publish_cases hs
  · obtain ⟨h1, h2, h3, h4, h5, h6, h7, h8, h9⟩ := h
    clear hs
    constructor
    all_goals simp only [Function.update_apply, release]
    all_goals grind -ring -linarith [Backs]
  · exact h.discard ht hblk
  · exact h.share ht hlock hblk hinv

theorem Coded.endFree (h : s.Coded) (hs : s.endFree = some s') : s'.Coded := by
  obtain ⟨h1, h2, h3, h4, h5, h6, h7, h8, h9⟩ := h
  obtain ⟨b, free, ht, rfl⟩ := endFree_cases hs
  clear hs
  constructor
  all_goals simp only [Function.update_apply]
  all_goals grind -ring -linarith [Backs]

theorem Coded.endPublish (h : s.Coded) (hs : s.endPublish = some s') : s'.Coded := by
  obtain ⟨h1, h2, h3, h4, h5, h6, h7, h8, h9⟩ := h
  obtain ⟨b, w, blk, ht, -, hblk, rfl⟩ := endPublish_cases hs
  clear hs
  constructor
  all_goals simp only [Function.update_apply]
  all_goals grind -ring -linarith [Backs]

end T2cWorld

/-! ## The caches -/

/-- The thread is in `code_cache_flush`, which takes no lock. -/
def MainThread.flushes : MainThread → Bool
  | flush _ => true
  | _ => false

theorem MainThread.writer_eq_none {m : MainThread} (hl : m.locks = false) (hf : m.flushes = false) :
    m.writer = none := by
  cases m with
  | evict => cases hl
  | fence => cases hl
  | flush => cases hf
  | _ => rfl

theorem T2cThread.writer_eq_none {t : T2cThread} (h : t.locks = false) : t.writer = none := by
  cases t with
  | publishing => cases h
  | _ => rfl

theorem MainThread.writer_lagged (cache cache' : CodeTab) (m : MainThread) :
    (m.lagged cache cache').writer = m.writer := by
  cases m <;> rfl

theorem MainThread.writer_wrote {m : MainThread} {w : CacheWriter} (h : m.writer = some w) (w' : CacheWriter) :
    (m.wrote w').writer = some w' := by
  cases m <;> first | rfl | cases h

theorem MainThread.wrote_eq_fence {m : MainThread} {w w' v : CacheWriter} {va : Option Word} {satp : Word}
    (hm : m.writer = some w) (h : m.wrote w' = .fence va satp v) : m = .fence va satp w ∧ v = w' := by
  cases m with
  | fence =>
    cases hm
    cases h
    exact ⟨rfl, rfl⟩
  | _ => cases h

theorem MainThread.wrote_eq_evict {m : MainThread} {w w' v : CacheWriter} {r : Nat}
    (hm : m.writer = some w) (h : m.wrote w' = .evict r v) : m = .evict r w ∧ v = w' := by
  cases m with
  | evict =>
    cases hm
    cases h
    exact ⟨rfl, rfl⟩
  | _ => cases h

/-- The elements that a fence's operation removes. -/
theorem fenceOp_hits {va : Option Word} {satp : Word} {key : BitVec 64} (hkey : key ≠ 0)
    (hc : fenceCovers va satp key = true) : (fenceOp va satp).hits key = true := by
  obtain ⟨hsatp, hpage⟩ := of_decide_eq_true hc
  cases va with
  | none => rfl
  | some va => exact decide_eq_true ⟨hkey, hsatp, hpage va rfl⟩

theorem jitCachePos_lt (key : BitVec 64) : (jitCachePos key).toNat < nJitCacheEntries.toNat := by
  unfold jitCachePos
  rw [BitVec.toNat_setWidth, BitVec.toNat_and]
  have hand : ((keyPc key ^^^ keySatp key).toNat &&& (nJitCacheEntries - 1).toNat) ≤ (nJitCacheEntries - 1).toNat :=
    Nat.and_le_right
  have hn : (nJitCacheEntries - 1).toNat < nJitCacheEntries.toNat := by decide
  exact lt_of_le_of_lt (Nat.mod_le _ _) (lt_of_le_of_lt hand hn)

theorem jitCachePos_mem_fenceOp (va : Option Word) (satp : Word) (key : BitVec 64) :
    jitCachePos key ∈ (fenceOp va satp).slots := by
  cases va <;> exact (mem_allSlots _).mpr (jitCachePos_lt key)

theorem fenceOp_entry (va : Option Word) (satp : Word) : (fenceOp va satp).entry = none := by
  cases va <;> rfl

theorem even_of_and_one {x : Word} (h : x &&& 1 = 0) : x.toNat % 2 = 0 := by
  have hand := congrArg BitVec.toNat h
  rw [BitVec.toNat_and] at hand
  exact (Nat.and_one_is_mod x.toNat).symm.trans hand

namespace T2cWorld

variable {s s' : T2cWorld}

/-- What an element of `jit_cache` shows. The fences and `inline_cache_clear_key` spare the key 0. -/
def Shows (s : T2cWorld) (i key : BitVec 64) (func : Word) : Prop :=
  key ≠ 0 → i = jitCachePos key ∧ s.Fresh key func

/-- The thread that writes `jit_cache`, or nobody. -/
def writer (s : T2cWorld) : CacheWriter := (s.main.writer.or s.t2c.writer).getD { op := .clear, todo := [] }

def Looking (s : T2cWorld) (key jc : BitVec 64) (lag : Nat) : LookStage → Prop
  | .inline | .seq | .fallback => True
  | .key seq1 => Cell.Seen seq1 lag (fun _ => True) (s.jitCache jc).cell
  | .entry seq1 => Cell.Seen seq1 lag (fun x => x.1 = key) (s.jitCache jc).cell
  | .recheck seq1 entry => Cell.Seen seq1 lag (fun x => x = (key, entry)) (s.jitCache jc).cell
  | .found func => key ≠ 0 → s.Fresh key func

structure Inv (s : T2cWorld) : Prop where
  owned : s.Owned
  coded : s.Coded
  inline : ∀ i f, (s.inlineCache i).entry = some f → (s.inlineCache i).key ≠ 0 → s.Fresh (s.inlineCache i).key f
  table : s.writer.Inv s.Shows s.jitCache
  left : ∀ w, s.main.writer = some w →
    w.Left s.jitCache ∨ ∃ r, s.main = .evict r w ∧ ∀ blk, s.blocks r = some blk → blk.func = none
  look : ∀ key ic jc lag stage, s.main = .look key ic jc lag stage → s.Looking key jc lag stage

/-- No publication overlaps a flush of the code cache, a lookup takes less than `2 ^ 31` writes to its element, and
the pool hands out elements that are not in use. -/
structure Regular (s : T2cWorld) : Prop where
  flush : s.main.flushes = true → s.t2c.writer = none
  lag : s.main.lag < 2 ^ 32
  pool : s.Unused

theorem Owned.alone {w : CacheWriter} (h : s.Owned) (hr : s.Regular) (hw : s.t2c.writer = some w) :
    s.main.writer = none := by
  refine MainThread.writer_eq_none (h.lock (T2cThread.locks_of_writer hw)) (Bool.eq_false_iff.mpr fun hf => ?_)
  exact Option.some_ne_none w (hw.symm.trans (hr.flush hf))

theorem writer_main {w : CacheWriter} (h : s.main.writer = some w) : s.writer = w := by
  rw [writer, h]
  rfl

theorem writer_none (h : s.main.writer = none) (ht : s.t2c.writer = none) :
    s.writer = { op := .clear, todo := [] } := by
  rw [writer, h, ht]
  rfl

theorem writer_t2c {w : CacheWriter} (h : s.main.writer = none) (ht : s.t2c.writer = some w) : s.writer = w := by
  rw [writer, h, ht]
  rfl

theorem Shows.imp {i key : BitVec 64} {f : Word} (h : s.Shows i key f)
    (hf : ∀ key f, s.Fresh key f → s'.Fresh key f) : s'.Shows i key f :=
  fun hk => ⟨(h hk).1, hf key f (h hk).2⟩

theorem writer_idle (h : s.main = .idle) (ht : s.t2c.writer = none) : s.writer = { op := .clear, todo := [] } := by
  refine writer_none ?_ ht
  rw [h]
  rfl

/-- The main thread and the caches stay, and every function that may be entered. -/
theorem Inv.frame (h : s.Inv) (ho : s'.Owned) (hc : s'.Coded) (hjit : s'.jitCache = s.jitCache)
    (hinline : s'.inlineCache = s.inlineCache) (hmain : s'.main = s.main)
    (hblocks : ∀ r, s.main.evicted = some r → s'.blocks r = s.blocks r)
    (hfresh : ∀ key f, s.Fresh key f → s'.Fresh key f) (htable : s'.writer.Inv s'.Shows s.jitCache) : s'.Inv where
  owned := ho
  coded := hc
  inline i f hf hk := by
    rw [hinline] at hf hk ⊢
    exact hfresh _ _ (h.inline i f hf hk)
  table := by
    rw [hjit]
    exact htable
  left w hw := by
    rw [hmain] at hw
    rw [hjit]
    refine (h.left w hw).imp_right fun ⟨r, hr, hb⟩ => ⟨r, hmain.trans hr, ?_⟩
    rw [hblocks r (by rw [hr]; rfl)]
    exact hb
  look key ic jc lag stage hm := by
    have hl := h.look key ic jc lag stage (hmain.symm.trans hm)
    unfold Looking at hl ⊢
    rw [hjit]
    cases stage with
    | found f => exact fun hk => hfresh key f (hl hk)
    | _ => exact hl

theorem inv_init : Inv {} where
  owned := owned_init
  coded :=
    { engine := fun _ _ _ h => by cases h
      inj := fun _ _ _ _ _ h => by cases h
      hot := fun _ _ h => by cases h
      compiling := fun _ _ _ h => by cases h
      compiled := fun _ _ _ h => by cases h
      publishing := fun _ _ _ h => by cases h
      fencing := fun _ _ _ _ _ h => by cases h
      fencingOp := fun _ _ _ h => by cases h
      evictingOp := fun _ _ _ h => by cases h }
  inline _ _ h := by cases h
  table :=
    { pairs := fun _ _ _ h => by cases h
      even := fun _ _ => rfl
      held := fun _ h => by cases h
      op := fun _ h => by cases h }
  left _ h := by cases h
  look _ _ _ _ _ h := by cases h

/-- The caches, the engines and both threads stay. -/
theorem Inv.alloc (h : s.Inv) (ho : s'.Owned) (hc : s'.Coded) (hjit : s'.jitCache = s.jitCache)
    (hinline : s'.inlineCache = s.inlineCache) (hengines : s'.engines = s.engines) (hmain : s'.main = s.main)
    (ht2c : s'.t2c = s.t2c) (hblocks : ∀ r, s.main.evicted = some r → s'.blocks r = s.blocks r) : s'.Inv := by
  have hfresh (key : BitVec 64) (f : Word) (hf : s.Fresh key f) : s'.Fresh key f := hf.congr (by rw [hengines]) id
  refine h.frame ho hc hjit hinline hmain hblocks hfresh ?_
  have hwriter : s'.writer = s.writer := by
    unfold writer
    rw [hmain, ht2c]
  rw [hwriter]
  exact h.table.imp (fun _ _ _ hshow => hshow.imp hfresh) fun i hi g hg => (h.table.op i hi g hg).imp hfresh

theorem Inv.endAlloc (h : s.Inv) (hu : s.Unused) (hs : s.endAlloc = some s') : s'.Inv := by
  have ho := h.owned.endAlloc hu hs
  have hc := h.coded.endAlloc h.owned hu hs
  rcases endAlloc_cases hs with ⟨-, rfl⟩ | ⟨b, free, ha, rfl⟩
  · exact h.alloc ho hc rfl rfl rfl rfl rfl fun _ _ => rfl
  · refine h.alloc ho hc rfl rfl rfl rfl rfl fun r hr => Function.update_of_ne (fun hrb => ?_) _ _
    exact (h.owned.free b (hu b free ha)).2.1 (hrb ▸ hr)

theorem Inv.put {key : BitVec 64} {pcEnd : Word} {outcome : PutOutcome} (h : s.Inv)
    (hs : s.put key pcEnd outcome = some s') : s'.Inv := by
  have ho := h.owned.put hs
  have hc := h.coded.put h.owned hs
  obtain ⟨hm, hlock, b, -, hs'⟩ := put_cases hs
  have hnone (r : Nat) : s.main.evicted ≠ some r := by
    rw [hm]
    exact (Option.some_ne_none r).symm
  rcases hs' with ⟨-, rfl⟩ | ⟨-, rfl⟩ | ⟨r, blk, -, hr, hblk, rfl⟩
  · exact h.alloc ho hc rfl rfl rfl rfl rfl fun r hr => absurd hr (hnone r)
  · exact h.alloc ho hc rfl rfl rfl rfl rfl fun r hr => absurd hr (hnone r)
  · refine ⟨ho, hc, h.inline, ?_, fun w hw => ?_, fun _ _ _ _ _ hm => by cases hm⟩
    · refine h.table.next (by rw [writer_idle hm (T2cThread.writer_eq_none hlock)]) ?_ fun i _ f hf => ?_
      · change blk.withdraw.stage = _
        unfold T2cBlock.withdraw
        split <;> rfl
      · change blk.withdraw.op.entry = some f at hf
        rw [T2cBlock.withdraw_op] at hf
        cases hf
    · cases hw
      cases hfunc : blk.func with
      | none =>
        refine .inr ⟨r, rfl, fun blk' hb => ?_⟩
        simp only [Function.update_self, Option.some.injEq] at hb
        rw [← hb]
      | some f =>
        refine .inl ?_
        have hw : blk.withdraw = .start (.update blk.key none) := if_pos (by rw [hfunc]; rfl)
        rw [hw]
        exact CacheWriter.left_start _ _

theorem Inv.endEvict {r : Nat} {w : CacheWriter} (h : s.Inv) (hm : s.main = .evict r w) (hdone : w.todo = [])
    (hs : s.endEvict r = some s') : s'.Inv := by
  have ho := h.owned.endEvict hm hs
  have hc := h.coded.endEvict h.owned hm hs
  have hmain : s.main.writer = some w := by rw [hm]; rfl
  have htable := writer_main hmain ▸ h.table
  obtain ⟨blk, hblk, hcases⟩ := endEvict_cases hs
  have hop := h.coded.evictingOp r w blk hm hblk
  -- the element of the block's key shows no function of the block
  have hgone (i : BitVec 64) (f : Word) (hentry : (s.jitCache i).entry = some f)
      (hshow : s.Shows i (s.jitCache i).key f) (hk : (s.jitCache i).key ≠ 0) : blk.func ≠ some f := by
    intro hf
    obtain ⟨hpos, hfresh⟩ := hshow hk
    have hkey := hfresh.key_eq (h.coded.engine r blk f hblk hf)
    rcases h.left w hmain with hleft | ⟨r', hr', hnone⟩
    · rw [CacheWriter.Left, hop, hdone] at hleft
      have hi : i = jitCachePos blk.key := hkey ▸ hpos
      rcases hleft i (List.mem_singleton.mpr hi) List.not_mem_nil with hhit | ⟨-, hnull⟩
      · cases hhit
      · rw [hentry] at hnull
        cases hnull
    · cases hm.symm.trans hr'
      rw [hnone blk hblk] at hf
      cases hf
  have hinline (i : BitVec 64) (f : Word) (hentry : (inlineCacheClearKey s.inlineCache blk.key i).entry = some f)
      (hk : (inlineCacheClearKey s.inlineCache blk.key i).key ≠ 0) :
      s.Fresh (inlineCacheClearKey s.inlineCache blk.key i).key f ∧ blk.func ≠ some f := by
    unfold inlineCacheClearKey at hentry hk ⊢
    split_ifs at hentry hk ⊢ with hkey
    have hfresh := h.inline i f hentry hk
    refine ⟨hfresh, fun hf => hkey ?_⟩
    have hsame := hfresh.key_eq (h.coded.engine r blk f hblk hf)
    exact ⟨hsame ▸ hk, hsame⟩
  have hkept (hjit : s'.jitCache = s.jitCache) (hin : s'.inlineCache = inlineCacheClearKey s.inlineCache blk.key)
      (hidle : s'.main = .idle) (ht : s'.t2c = s.t2c)
      (hfresh : ∀ key f, s.Fresh key f → blk.func ≠ some f → s'.Fresh key f) : s'.Inv := by
    refine ⟨ho, hc, fun i f hf hk => ?_, ?_, fun w hw => ?_, fun _ _ _ _ _ hm' => ?_⟩
    · rw [hin] at hf hk ⊢
      obtain ⟨hfr, hne⟩ := hinline i f hf hk
      exact hfresh _ f hfr hne
    · have hlock : s'.t2c.locks = false := by
        rw [ht]
        by_contra hl
        have hml := h.owned.lock (Bool.eq_true_of_not_eq_false hl)
        rw [hm] at hml
        cases hml
      rw [hjit, writer_idle hidle (T2cThread.writer_eq_none hlock)]
      refine (htable.imp (fun i f hf hshow hk => ?_) ?_).next hdone rfl ?_
      · exact ⟨(hshow hk).1, hfresh _ f (hshow hk).2 (hgone i f hf hshow hk)⟩
      · rw [hdone]
        exact fun _ hi => absurd hi List.not_mem_nil
      · exact fun _ hi => absurd hi List.not_mem_nil
    · rw [hidle] at hw
      cases hw
    · rw [hidle] at hm'
      cases hm'
  rcases hcases with ⟨-, rfl⟩ | ⟨-, rfl⟩
  · exact hkept rfl rfl rfl rfl fun _ _ hf _ => hf
  · refine hkept rfl rfl rfl rfl fun key f hf hne => hf.congr ?_ id
    change s.disposed blk.func f = s.engines f
    unfold disposed
    cases hg : blk.func with
    | none => rfl
    | some g => exact Function.update_of_ne (fun hfg => hne (hg.trans (congrArg some hfg.symm))) _ _

theorem Inv.fence {va : Option Word} {satp : Word} {scan : Bool} (h : s.Inv) (hs : s.fence va satp scan = some s') :
    s'.Inv := by
  have ho := h.owned.fence hs
  have hc := h.coded.fence hs
  obtain ⟨hm, hlock, rfl⟩ := fence_cases hs
  refine ⟨ho, hc, h.inline, ?_, fun w hw => ?_, fun _ _ _ _ _ hm' => by cases hm'⟩
  · refine h.table.next (by rw [writer_idle hm (T2cThread.writer_eq_none hlock)]) rfl fun i _ f hf => ?_
    change (fenceOp va satp).entry = some f at hf
    rw [fenceOp_entry] at hf
    cases hf
  · cases hw
    exact .inl (CacheWriter.left_start _ _)

theorem staleT2c_locks (va : Option Word) (satp : Word) : (s.staleT2c va satp).locks = s.t2c.locks := by
  unfold staleT2c
  cases s.t2c <;> rfl

theorem Inv.endFence {va : Option Word} {satp : Word} {w : CacheWriter} (h : s.Inv) (hm : s.main = .fence va satp w)
    (hdone : w.todo = []) : (s.endFence va satp).Inv := by
  have hmain : s.main.writer = some w := by rw [hm]; rfl
  have htable := writer_main hmain ▸ h.table
  have hop := h.coded.fencingOp va satp w hm
  have hfresh {key : BitVec 64} {f : Word} (hf : s.Fresh key f) (hc : fenceCovers va satp key = false) :
      (s.endFence va satp).Fresh key f := Backs.endFence hf id fun _ => hc
  refine ⟨h.owned.endFence hm, h.coded.endFence hm, fun i f hf hk => ?_, ?_, fun w hw => (by cases hw),
    fun _ _ _ _ _ hm' => (by cases hm')⟩
  · change (inlineCacheFence va satp s.inlineCache i).entry = some f at hf
    change (inlineCacheFence va satp s.inlineCache i).key ≠ 0 at hk
    change (s.endFence va satp).Fresh (inlineCacheFence va satp s.inlineCache i).key f
    cases va with
    | none => cases hf
    | some va =>
      unfold inlineCacheFence at hf hk ⊢
      simp only [] at hf hk ⊢
      split_ifs at hf hk ⊢ with hcover
      refine hfresh (h.inline i f hf hk) (Bool.eq_false_iff.mpr fun hc => hcover ?_)
      exact (fenceOp_hits hk hc : (fenceOp (some va) satp).hits _ = true)
  · have hlock : (s.endFence va satp).t2c.locks = false := by
      by_contra hl
      have hml := h.owned.lock ((staleT2c_locks va satp).symm.trans (Bool.eq_true_of_not_eq_false hl))
      rw [hm] at hml
      cases hml
    rw [writer_idle rfl (T2cThread.writer_eq_none hlock)]
    refine (htable.imp (fun i f hf hshow hk => ?_) ?_).next hdone rfl ?_
    · obtain ⟨hpos, hfr⟩ := hshow hk
      refine ⟨hpos, hfresh hfr (Bool.eq_false_iff.mpr fun hc => ?_)⟩
      rcases h.left w hmain with hleft | ⟨r, hr, -⟩
      · rw [CacheWriter.Left, hop, hdone] at hleft
        rcases hleft i (hpos ▸ jitCachePos_mem_fenceOp va satp _) List.not_mem_nil with hhit | ⟨-, hnull⟩
        · rw [fenceOp_hits hk hc] at hhit
          cases hhit
        · rw [hf, fenceOp_entry] at hnull
          cases hnull
      · cases hm.symm.trans hr
    · rw [hdone]
      exact fun _ hi => absurd hi List.not_mem_nil
    · exact fun _ hi => absurd hi List.not_mem_nil

theorem Inv.remain (h : s.Inv) {m : MainThread} (he : m.evicted = s.main.evicted) (hl : m.locks = s.main.locks)
    (hw : s.main.writer = none) (hw' : m.writer = none)
    (hlook : ∀ key ic jc lag stage, m = .look key ic jc lag stage → s.Looking key jc lag stage) :
    Inv { s with main := m } := by
  have hno {r : Nat} {w : CacheWriter} (hm : m = .evict r w) : False := by
    rw [hm] at hw'
    cases hw'
  have hnof {va : Option Word} {satp : Word} {w : CacheWriter} (hm : m = .fence va satp w) : False := by
    rw [hm] at hw'
    cases hw'
  refine ⟨h.owned.congr rfl rfl he hl rfl rfl rfl, ?_, h.inline, ?_, fun w hm => ?_, hlook⟩
  · obtain ⟨h1, h2, h3, h4, h5, h6, h7, h8, h9⟩ := h.coded
    exact ⟨h1, h2, h3, h4, h5, h6, fun _ _ _ _ _ hm => (hnof hm).elim, fun _ _ _ hm => (hnof hm).elim,
      fun _ _ _ hm => (hno hm).elim⟩
  · have hwriter : writer { s with main := m } = s.writer := by
      unfold writer
      rw [hw, hw']
    rw [hwriter]
    exact h.table
  · rw [show m.writer = some w from hm] at hw'
    cases hw'

theorem Inv.flush (h : s.Inv) (hr : Regular s') (hs : s.flush = some s') : s'.Inv := by
  obtain ⟨hm, rfl⟩ := flush_cases hs
  have hnone : s.t2c.writer = none := hr.flush rfl
  refine ⟨h.owned.congr rfl rfl (by rw [hm]; rfl) (by rw [hm]; rfl) rfl rfl rfl, ?_, h.inline, ?_, fun w hw => ?_,
    fun _ _ _ _ _ hm' => (by cases hm')⟩
  · obtain ⟨h1, h2, h3, h4, h5, h6, h7, h8, h9⟩ := h.coded
    exact ⟨h1, h2, h3, h4, h5, h6, fun _ _ _ _ _ hm => (by cases hm), fun _ _ _ hm => (by cases hm),
      fun _ _ _ hm => (by cases hm)⟩
  · exact h.table.next (by rw [writer_idle hm hnone]) rfl fun i _ f hf => (by cases hf)
  · cases hw
    exact .inl (CacheWriter.left_start _ _)

theorem Inv.endFlush {w : CacheWriter} (h : s.Inv) (hr : s.Regular) (hm : s.main = .flush w) (hdone : w.todo = []) :
    s.endFlush.Inv := by
  have htable := writer_main (show s.main.writer = some w by rw [hm]; rfl) ▸ h.table
  have hnone : s.t2c.writer = none := hr.flush (by rw [hm]; rfl)
  refine ⟨h.owned.congr rfl rfl (by rw [hm]; rfl) (by rw [hm]; rfl) rfl rfl rfl, ?_, fun _ _ hf => (by cases hf), ?_,
    fun _ hw => (by cases hw), fun _ _ _ _ _ hm' => (by cases hm')⟩
  · obtain ⟨h1, h2, h3, h4, h5, h6, h7, h8, h9⟩ := h.coded
    exact ⟨h1, h2, h3, h4, h5, h6, fun _ _ _ _ _ hm => (by cases hm), fun _ _ _ hm => (by cases hm),
      fun _ _ _ hm => (by cases hm)⟩
  · rw [writer_idle (s := s.endFlush) rfl hnone]
    exact htable.next hdone rfl fun _ hi => absurd hi List.not_mem_nil

theorem Inv.looking {key ic jc : BitVec 64} {lag : Nat} {stage : LookStage} (h : s.Inv) (hr : s.Regular)
    (hm : s.main = .look key ic jc lag stage) :
    s.Looking key jc (LookStage.lag lag stage) (stage.step key ic jc s.jitCache s.inlineCache).2 := by
  have hl := h.look key ic jc lag stage hm
  have hlag : lag < 2 ^ 32 := by
    have := hr.lag
    rwa [hm] at this
  cases stage with
  | inline =>
    simp only [LookStage.step]
    cases hentry : (s.inlineCache ic).entry with
    | none => trivial
    | some f =>
      by_cases hkey : (s.inlineCache ic).key = key
      · simp only [if_pos hkey]
        exact fun hk => hkey ▸ h.inline ic f hentry (hkey ▸ hk)
      · simp only [if_neg hkey]
        trivial
  | seq =>
    simp only [LookStage.step]
    split_ifs with heven
    · exact Cell.Seen.start (c := (s.jitCache jc).cell) (even_of_and_one heven)
    · trivial
  | key seq1 =>
    simp only [LookStage.step]
    split_ifs with hkey
    · exact Cell.Seen.imp hl fun _ => hkey
    · trivial
  | entry seq1 => exact Cell.Seen.imp hl fun hk => Prod.ext hk rfl
  | recheck seq1 entry =>
    cases entry with
    | none => trivial
    | some f =>
      simp only [LookStage.step]
      split_ifs with hseq
      · -- the sequence number has not moved
        obtain ⟨heven, hdata⟩ := Cell.Seen.read hl hlag hseq
        obtain ⟨hkey, hentry⟩ := Prod.mk.inj hdata
        have hshow := h.table.pairs jc f heven hentry
        rw [hkey] at hshow
        exact fun hk => (hshow hk).2
      · trivial
  | found f => exact hl
  | fallback => trivial

theorem lookStep_inline (key ic jc : BitVec 64) (stage : LookStage) (cache inline : CodeTab) :
    (stage.step key ic jc cache inline).1 = inline ∨
      ∃ f, (stage.step key ic jc cache inline).2 = .found f ∧
        (stage.step key ic jc cache inline).1 = Function.update inline ic { inline ic with key, entry := some f } := by
  cases stage with
  | inline =>
    simp only [LookStage.step]
    split <;> exact .inl rfl
  | recheck seq1 entry =>
    cases entry with
    | none => exact .inl rfl
    | some f =>
      simp only [LookStage.step]
      split_ifs
      · exact .inr ⟨f, rfl, rfl⟩
      · exact .inl rfl
  | _ => exact .inl rfl

theorem Inv.lookStep {key ic jc : BitVec 64} {lag : Nat} {stage : LookStage} (h : s.Inv) (hr : s.Regular)
    (hm : s.main = .look key ic jc lag stage) :
    Inv { s with
      inlineCache := (stage.step key ic jc s.jitCache s.inlineCache).1
      main := .look key ic jc (LookStage.lag lag stage) (stage.step key ic jc s.jitCache s.inlineCache).2 } := by
  have hlooking := h.looking hr hm
  have hmain := h.remain (m := .look key ic jc (LookStage.lag lag stage)
    (stage.step key ic jc s.jitCache s.inlineCache).2) (by rw [hm]; rfl) (by rw [hm]; rfl) (by rw [hm]; rfl) rfl
    (fun _ _ _ _ _ hm' => by cases hm'; exact hlooking)
  refine ⟨hmain.owned.congr rfl rfl rfl rfl rfl rfl rfl, ?_, fun i f hf hk => ?_, hmain.table, hmain.left, hmain.look⟩
  · obtain ⟨h1, h2, h3, h4, h5, h6, h7, h8, h9⟩ := hmain.coded
    exact ⟨h1, h2, h3, h4, h5, h6, h7, h8, h9⟩
  · rcases lookStep_inline key ic jc stage s.jitCache s.inlineCache with heq | ⟨g, hfound, heq⟩
    · simp only [heq] at hf hk ⊢
      exact h.inline i f hf hk
    · simp only [heq, Function.update_apply] at hf hk ⊢
      split_ifs at hf hk ⊢ with hi
      · cases hf
        rw [hfound] at hlooking
        exact hlooking hk
      · exact h.inline i f hf hk

theorem Inv.mainWrite {w : CacheWriter} (h : s.Inv) (hm : s.main.writer = some w) :
    Inv { s with jitCache := (w.step s.jitCache).1, main := s.main.wrote (w.step s.jitCache).2 } := by
  have htable := writer_main hm ▸ h.table
  have hw' := MainThread.writer_wrote hm (w.step s.jitCache).2
  refine ⟨h.owned.congr rfl rfl (MainThread.evicted_wrote _ _) (MainThread.locks_wrote _ _) rfl rfl rfl, ?_,
    h.inline, ?_,
    fun v hv => ?_, fun _ _ _ _ _ hm' => ?_⟩
  · obtain ⟨h1, h2, h3, h4, h5, h6, h7, h8, h9⟩ := h.coded
    refine ⟨h1, h2, h3, h4, h5, h6, fun va satp v b blk hm' => ?_, fun va satp v hm' => ?_, fun r v blk hm' hb => ?_⟩
    · exact h7 va satp w b blk (MainThread.wrote_eq_fence hm hm').1
    · obtain ⟨hmain, rfl⟩ := MainThread.wrote_eq_fence hm hm'
      exact (CacheWriter.step_op _ _).trans (h8 va satp w hmain)
    · obtain ⟨hmain, rfl⟩ := MainThread.wrote_eq_evict hm hm'
      exact (CacheWriter.step_op _ _).trans (h9 r w blk hmain hb)
  · have hwriter : writer { s with jitCache := (w.step s.jitCache).1, main := s.main.wrote (w.step s.jitCache).2 } =
        (w.step s.jitCache).2 := writer_main hw'
    rw [hwriter]
    exact htable.step
  · cases hw'.symm.trans hv
    refine (h.left w hm).imp (fun hl => hl.step htable) fun ⟨r, hr, hb⟩ => ⟨r, ?_, hb⟩
    rw [hr]
    rfl
  · rw [show s.main.wrote _ = _ from hm'] at hw'
    cases hw'

theorem Inv.frame_writer (h : s.Inv) (ho : s'.Owned) (hc : s'.Coded) (hjit : s'.jitCache = s.jitCache)
    (hinline : s'.inlineCache = s.inlineCache) (hmain : s'.main = s.main)
    (hblocks : ∀ r, s.main.evicted = some r → s'.blocks r = s.blocks r)
    (hfresh : ∀ key f, s.Fresh key f → s'.Fresh key f) (ht : s.t2c.writer = none) (ht' : s'.t2c.writer = none) :
    s'.Inv := by
  refine h.frame ho hc hjit hinline hmain hblocks hfresh ?_
  have hwriter : s'.writer = s.writer := by
    unfold writer
    rw [hmain, ht, ht']
  rw [hwriter]
  exact h.table.imp (fun _ _ _ hshow => hshow.imp hfresh) fun i hi g hg => (h.table.op i hi g hg).imp hfresh

theorem blocks_of_locks (hlock : s.main.locks = false) (r : Nat) (hr : s.main.evicted = some r) :
    s'.blocks r = s.blocks r := absurd (hlock.symm.trans (MainThread.locks_of_evicted hr)) (by decide)

theorem Inv.take {b : Nat} (h : s.Inv) (hs : s.take b = some s') : s'.Inv := by
  have ho := h.owned.take hs
  have hc := h.coded.take hs
  obtain ⟨hidle, hlock, -, blk, hblk, rfl | rfl⟩ := take_cases hs
  · exact h
  · exact h.frame_writer ho hc rfl rfl rfl (blocks_of_locks hlock) (fun _ _ hf => hf) (by rw [hidle]; rfl) rfl

theorem Inv.finish {func : Option Word} (h : s.Inv) (hs : s.finish func = some s') : s'.Inv := by
  have ho := h.owned.finish hs
  have hc := h.coded.finish hs
  obtain ⟨b, stale, ht, rfl | ⟨f, blk, hf, hblk, rfl⟩⟩ := finish_cases hs
  · exact h.frame_writer ho hc rfl rfl rfl (fun _ _ => rfl) (fun _ _ hf => hf) (by rw [ht]; rfl) rfl
  · refine h.frame_writer ho hc rfl rfl rfl (fun _ _ => rfl) (fun key g hg => ?_) (by rw [ht]; rfl) rfl
    exact hg.congr (Function.update_of_ne (hg.ne_free hf) _ _) id

theorem release_writer (s : T2cWorld) (b : Nat) (blk : T2cBlock) : (s.release b blk).writer = none := by
  unfold release
  split_ifs <;> rfl

theorem Inv.publish (h : s.Inv) (hr : s'.Regular) (hs : s.publish = some s') : s'.Inv := by
  have ho := h.owned.publish hs
  have hc := h.coded.publish hs
  obtain ⟨b, func, blk, ht, hlock, hblk, ⟨rfl, rfl⟩ | ⟨f, rfl, rfl⟩ | ⟨f, rfl, hf, hi, rfl⟩⟩ := publish_cases hs
  · exact h.frame_writer ho hc rfl rfl rfl (blocks_of_locks hlock) (fun _ _ hf => hf) (by rw [ht]; rfl)
      (s.release_writer b blk)
  · have hown := h.coded.compiled b f blk ht hblk
    refine h.frame_writer ho hc rfl rfl rfl (blocks_of_locks hlock) (fun key g hg => ?_) (by rw [ht]; rfl)
      (s.release_writer b blk)
    exact hg.congr (Function.update_of_ne (hg.ne hown) _ _) id
  · have hown := h.coded.compiled b f blk ht hblk
    generalize hs' : ({ s with
        blocks := Function.update s.blocks b (some { blk with isCompiling := false, func := some f })
        engines := Function.update s.engines f ((s.engines f).map fun e => { e with shared := true })
        t2c := .publishing b (.start (.update blk.key (some f))) } : T2cWorld) = s' at ho hc hr ⊢
    have hfresh (key : BitVec 64) (g : Word) (hg : s.Fresh key g) : s'.Fresh key g := by
      refine hg.congr ?_ id
      rw [← hs']
      exact Function.update_of_ne (hg.ne hown) _ _
    have hnone : s.main.writer = none := by
      have hmain := ho.alone (w := .start (.update blk.key (some f))) hr (by rw [← hs']; rfl)
      rwa [← hs'] at hmain
    have hwriter : s'.writer = .start (.update blk.key (some f)) := by
      refine writer_t2c ?_ ?_
      all_goals rw [← hs']
      · exact hnone
      · rfl
    refine h.frame ho hc (by rw [← hs']) (by rw [← hs']) (by rw [← hs']) (blocks_of_locks hlock) hfresh ?_
    · rw [hwriter]
      have hidle : s.writer.todo = [] := by rw [writer_none hnone (by rw [ht]; rfl)]
      refine (h.table.imp (fun _ _ _ hshow => hshow.imp hfresh) ?_).next hidle rfl fun i hmem g hg hk => ?_
      · rw [hidle]
        exact fun _ hi => absurd hi List.not_mem_nil
      · -- the function that is published
        cases hg
        refine ⟨List.mem_singleton.mp hmem, ?_⟩
        have hback := hc.engine b { blk with isCompiling := false, func := some f } f
          (by rw [← hs']; exact Function.update_self ..) rfl
        exact hback.congr rfl fun _ => ⟨ho.publishing _ (by rw [← hs']; rfl) b (by rw [← hs']; rfl), hi⟩

theorem MainThread.eq_of_lagged_writer {m m' : MainThread} {cache cache' : CodeTab} (h : m.lagged cache cache' = m')
    {w : CacheWriter} (hw : m'.writer = some w) : m = m' := by
  cases m with
  | look =>
    rw [← h] at hw
    cases hw
  | _ => exact h

theorem Coded.t2cStep (h : s.Coded) (hs : s.t2cStep = some s') : s'.Coded := by
  obtain ⟨h1, h2, h3, h4, h5, h6, h7, h8, h9⟩ := h
  obtain ⟨b, w, ht, rfl⟩ := t2cStep_cases hs
  refine ⟨h1, h2, h3, fun _ _ _ hc => (by cases hc), fun _ _ _ hc => (by cases hc), fun b' w' blk ht' hb => ?_,
    fun va satp v b' blk hm => h7 va satp v b' blk (MainThread.eq_of_lagged_writer hm rfl),
    fun va satp v hm => h8 va satp v (MainThread.eq_of_lagged_writer hm rfl),
    fun r v blk hm => h9 r v blk (MainThread.eq_of_lagged_writer hm rfl)⟩
  cases ht'
  obtain ⟨hfunc, hinv, hop⟩ := h6 b w blk ht hb
  exact ⟨hfunc, hinv, (CacheWriter.step_op _ _).trans hop⟩

/-- The lookups survive a store of the other thread. -/
theorem Looking.store {key jc : BitVec 64} {lag : Nat} {stage : LookStage} {w : CacheWriter}
    (h : s.Looking key jc lag stage) (hw : w.Inv s.Shows s.jitCache) (hjit : s'.jitCache = (w.step s.jitCache).1)
    (hengines : s'.engines = s.engines) :
    s'.Looking key jc (lag + if ((w.step s.jitCache).1 jc).seq = (s.jitCache jc).seq then 0 else 1) stage := by
  unfold Looking at h ⊢
  rw [hjit]
  cases stage with
  | key => exact h.store (hw.store jc)
  | entry => exact h.store (hw.store jc)
  | recheck => exact h.store (hw.store jc)
  | found f => exact fun hk => (h hk).congr (by rw [hengines]) id
  | _ => trivial

theorem Inv.t2cStep (h : s.Inv) (hr : s.Regular) (hs : s.t2cStep = some s') : s'.Inv := by
  have ho := h.owned.t2cStep hs
  have hc := h.coded.t2cStep hs
  obtain ⟨b, w, ht, rfl⟩ := t2cStep_cases hs
  have ht' : s.t2c.writer = some w := by rw [ht]; rfl
  have hnone := h.owned.alone hr ht'
  have htable := writer_t2c hnone ht' ▸ h.table
  have hmain (cache : CodeTab) : (s.main.lagged s.jitCache cache).writer = none :=
    (MainThread.writer_lagged _ _ _).trans hnone
  refine ⟨ho, hc, h.inline, ?_, fun v hv => ?_, fun key ic jc lag stage hm => ?_⟩
  · have hwriter : writer { s with
        jitCache := (w.step s.jitCache).1
        main := s.main.lagged s.jitCache (w.step s.jitCache).1
        t2c := .publishing b (w.step s.jitCache).2 } = (w.step s.jitCache).2 := writer_t2c (hmain _) rfl
    rw [hwriter]
    exact htable.step
  · cases (hmain _).symm.trans hv
  · cases hmain' : s.main with
    | look key' ic' jc' lag' stage' =>
      rw [hmain'] at hm
      cases hm
      exact (h.look _ _ _ _ _ hmain').store htable rfl rfl
    | _ =>
      rw [hmain'] at hm
      cases hm

theorem Inv.endPublish (h : s.Inv) (hr : s.Regular) (hs : s.endPublish = some s') : s'.Inv := by
  have ho := h.owned.endPublish hs
  have hc := h.coded.endPublish hs
  obtain ⟨b, w, blk, ht, hdone, hblk, rfl⟩ := endPublish_cases hs
  have ht' : s.t2c.writer = some w := by rw [ht]; rfl
  have hnone := h.owned.alone hr ht'
  have hlock := h.owned.lock (T2cThread.locks_of_writer ht')
  refine h.frame ho hc rfl rfl rfl (blocks_of_locks hlock) (fun _ _ hf => hf) ?_
  have hwriter : writer { s with
      blocks := Function.update s.blocks b (some { blk with hot2 := true }), t2c := .idle } =
      { op := .clear, todo := [] } := writer_none hnone rfl
  rw [hwriter]
  have htable := writer_t2c hnone ht' ▸ h.table
  exact htable.next hdone rfl fun _ hi => absurd hi List.not_mem_nil

theorem Inv.endFree (h : s.Inv) (hs : s.endFree = some s') : s'.Inv := by
  have ho := h.owned.endFree hs
  have hc := h.coded.endFree hs
  obtain ⟨b, free, ht, rfl⟩ := endFree_cases hs
  have hlock := h.owned.lock (by rw [ht]; rfl)
  exact h.frame_writer ho hc rfl rfl rfl (blocks_of_locks hlock) (fun _ _ hf => hf) (by rw [ht]; rfl) rfl

theorem Inv.step {a : T2cAct} (h : s.Inv) (hr : s.Regular) (hr' : s'.Regular) (hs : s.step a = some s') : s'.Inv := by
  cases a with
  | startAlloc =>
    have ho := h.owned.startAlloc hs
    obtain ⟨-, -, rfl⟩ := startAlloc_cases hs
    exact h.alloc ho (h.coded.congr rfl rfl rfl rfl rfl) rfl rfl rfl rfl rfl fun _ _ => rfl
  | extend =>
    have ho := h.owned.extend hs
    obtain ⟨-, rfl⟩ := extend_cases hs
    exact h.alloc ho (h.coded.congr rfl rfl rfl rfl rfl) rfl rfl rfl rfl rfl fun _ _ => rfl
  | endAlloc => exact h.endAlloc hr.pool hs
  | fail =>
    have ho := h.owned.fail hs
    obtain ⟨b, -, rfl⟩ := fail_cases hs
    exact h.alloc ho (h.coded.congr rfl rfl rfl rfl rfl) rfl rfl rfl rfl rfl fun _ _ => rfl
  | put => exact h.put hs
  | fence => exact h.fence hs
  | flush => exact h.flush hr' hs
  | look =>
    obtain ⟨hm, key, ic, jc, rfl⟩ := look_cases hs
    exact h.remain (by rw [hm]; rfl) (by rw [hm]; rfl) (by rw [hm]; rfl) rfl fun _ _ _ _ _ hl => (by cases hl; trivial)
  | mainStep =>
    rcases mainStep_cases hs with ⟨key, ic, jc, lag, stage, hm, rfl⟩ | ⟨w, hm, rfl⟩
    · exact h.lookStep hr hm
    · exact h.mainWrite hm
  | mainEnd =>
    rcases mainEnd_cases hs with ⟨r, w, hm, hdone, hs⟩ | ⟨va, satp, w, hm, hdone, rfl⟩ | ⟨w, hm, hdone, rfl⟩ |
      ⟨key, ic, jc, lag, stage, hm, rfl⟩
    · exact h.endEvict hm hdone hs
    · exact h.endFence hm hdone
    · exact h.endFlush hr hm hdone
    · exact h.remain (by rw [hm]; rfl) (by rw [hm]; rfl) (by rw [hm]; rfl) rfl fun _ _ _ _ _ hl => (by cases hl)
  | take => exact h.take hs
  | finish => exact h.finish hs
  | publish => exact h.publish hr' hs
  | endFree => exact h.endFree hs
  | t2cStep => exact h.t2cStep hr hs
  | endPublish => exact h.endPublish hr hs

theorem Reaches.inv (h : Reaches Regular s) : s.Inv := by
  induction h with
  | init => exact inv_init
  | step hr hs hr' ih => exact ih.step hr.holds hr' hs

def isRegular (s : T2cWorld) : Bool :=
  !(s.main.flushes && s.t2c.writer.isSome) && decide (s.main.lag < 2 ^ 32) &&
    match s.alloc with
    | .taking (b :: _) => (s.blocks b).isNone
    | _ => true

theorem regular_of_isRegular (s : T2cWorld) (h : s.isRegular = true) : s.Regular := by
  obtain ⟨hrest, hpool⟩ := Bool.and_eq_true_iff.mp h
  obtain ⟨hflush, hlag⟩ := Bool.and_eq_true_iff.mp hrest
  refine ⟨fun hf => ?_, of_decide_eq_true hlag, fun b free ha => ?_⟩
  · rw [hf] at hflush
    exact Option.not_isSome_iff_eq_none.mp (Bool.eq_false_iff.mp (Bool.not_eq_true' _ |>.mp hflush))
  · rw [ha] at hpool
    exact Option.isNone_iff_eq_none.mp hpool

/-- The block at `0x44` is published while an indirect jump looks it up. -/
def publishActs : List T2cAct :=
  [.startAlloc, .extend 4, .endAlloc, .put 0x44 0x48 .added, .take 0, .finish (some 0x1000), .publish,
    .look false 0x44 0, .mainStep] ++
    List.replicate 6 .t2cStep ++ List.replicate 4 .mainStep

/-- The jump to `0x44` has found the function at `0x1000`. -/
def foundPublished (s : T2cWorld) : Bool :=
  match s.main with
  | .look key _ _ _ (.found func) => key == 0x44 && func == 0x1000
  | _ => false

end T2cWorld

end Rv32emu
