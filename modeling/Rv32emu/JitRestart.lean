import Rv32emu.JitTables

/-!
# When one call of `jit_translate` ends

* `Holds` : calls that fit in the buffer and the offset map; `emitOps_flush_iff` : others set `should_flush`;
* `BlockCut` : the code of a block is cut short by a flush;
* `Rest` : what is left of a pass after that, when blocks are entered in the tables and nothing is emitted;
* `Cut` : a pass that is cut short, with the sizes; `jitPass_cut_iff`;
* `translateChainedBlock_fuel` : the recursion ends, since the offset map has a limit;
* `jitTranslate_ends_iff` : the call ends, with no failed assertion, exactly if the blocks fit in what is left of
  the tables, or the first pass is cut short and they fit in the emptied ones;
* `jitTranslate_crowded` : a block with more than `MAX_JUMPS` records fails an assertion.
-/

namespace Rv32emu

open JitState

/-! ## Calls that do not fit -/

/-- With `n` blocks in the offset map and `o` bytes in the buffer, the calls `ops` fit. -/
structure Holds (n o : Nat) (ops : List Emit) : Prop where
  size : o + (encode ops).length ≤ codeCacheSize
  full : n = maxBlocks → ∀ op ∈ ops, op.silent = true

theorem Holds.room {s : JitState} {ops : List Emit} (h : Holds s.offsetMap.length s.offset ops)
    (hnf : s.shouldFlush = false) : Room s ops := ⟨hnf, h.size, h.full⟩

theorem Holds.left {n o : Nat} {ops ops' : List Emit} (h : Holds n o (ops ++ ops')) : Holds n o ops where
  size := by
    have := h.size
    rw [encode_append, List.length_append] at this
    omega
  full := fun hn op hop => h.full hn op (List.mem_append_left _ hop)

theorem Holds.right {n o : Nat} {ops ops' : List Emit} (h : Holds n o (ops ++ ops')) :
    Holds n (o + (encode ops).length) ops' where
  size := by
    have := h.size
    rw [encode_append, List.length_append] at this
    omega
  full := fun hn op hop => h.full hn op (List.mem_append_right _ hop)

/-- A call that succeeds had room for its record. -/
theorem Emit.run_cap {op : Emit} {s s' : JitState} {l l' : Locs} (h : op.run (s, l) = .ok (s', l'))
    (hs : s.jumps.length ≤ maxJumps) : s.jumps.length + op.records ≤ maxJumps := by
  have haddr : ∀ {pc satp : Word} {for_ : Nat → JumpFor} {t : JitState},
      (s.emitBytes [jccJmp]).emitJumpTargetAddress pc satp for_ = .ok t → s.jumps.length + 1 ≤ maxJumps := by
    intro pc satp for_ t ht
    unfold emitJumpTargetAddress at ht
    rw [(emitBytes_spec _ _).2.2] at ht
    split_ifs at ht with hlt
    exact hlt
  cases op with
  | bytes data | jcc v code => exact hs
  | target v =>
    obtain ⟨t, ht, -⟩ := map_ok h
    unfold emitJumpTargetOffset at ht
    split_ifs at ht with hlt
    exact hlt
  | jmp pc satp | exit =>
    obtain ⟨t, ht, -⟩ := map_ok h
    exact haddr ht

theorem emitFrom_cap {ops : List Emit} {s s' : JitState} {l : Locs} (h : emitFrom ops (s, l) = .ok s')
    (hs : s.jumps.length ≤ maxJumps) : s.jumps.length + records ops ≤ maxJumps := by
  induction ops generalizing s l with
  | nil => exact hs
  | cons op ops ih =>
    obtain ⟨⟨t, l'⟩, hop, hrest⟩ := bind_ok h
    have hcap := Emit.run_cap hop hs
    obtain ⟨t', l'', hrun, -, -, hjumps, -⟩ := op.run_fits s l hcap
    rw [hop] at hrun
    cases hrun
    have := ih hrest (by omega)
    rw [records_cons]
    omega

theorem emitOps_tables {ops : List Emit} {s s' : JitState} (h : emitOps ops s = .ok s')
    (hj : s.jumps.length ≤ maxJumps) :
    s'.set = s.set ∧ s'.offsetMap = s.offsetMap ∧ s'.jumps.length = s.jumps.length + records ops := by
  obtain ⟨t, ht, hset, hmap, hjumps, -⟩ := emitFrom_fits ops s (fun _ => 0) (emitFrom_cap h hj)
  cases ht.symm.trans h
  exact ⟨hset, hmap, hjumps⟩

theorem emitOps_flush_iff {ops : List Emit} {s s' : JitState} (h : emitOps ops s = .ok s')
    (hnf : s.shouldFlush = false) (hsize : s.offset ≤ codeCacheSize) (hj : s.jumps.length ≤ maxJumps) :
    s'.shouldFlush = true ↔ ¬ Holds s.offsetMap.length s.offset ops := by
  obtain ⟨t, ht, -, -, -, hroom⟩ := emitFrom_fits ops s (fun _ => 0) (emitFrom_cap h hj)
  cases ht.symm.trans h
  constructor
  · intro hf hholds
    rw [hroom (hholds.room hnf)] at hf
    cases hf
  · intro hno
    by_contra hf
    have hg := emitOps_grew h (Bool.not_eq_true _ ▸ hf)
    refine hno ⟨?_, hg.full⟩
    rw [← hg.offset]
    exact hg.size hsize

/-! ## Blocks that are cut short -/

namespace JitCall

variable {c : JitCall} {b : JitBlock}

/-- The nodes `irs`, the first of which has the number `i`, are cut short: `o` bytes and `j` jump records stand
before them, and the last that is emitted does not fit. -/
inductive LoopCut (c : JitCall) (b : JitBlock) (n : Nat) : Nat → List Insn → Nat → Nat → Prop
  | here {i o j : Nat} {ir : Insn} {irs : List Insn} {ops : List Emit}
      (hops : dispatch c.bld c.csrSatp (c.code b i) (linksAt b i) ir = .ok ops) (hover : ¬ Holds n o ops)
      (hj : j + records ops ≤ maxJumps) : LoopCut c b n i (ir :: irs) o j
  | next {i o j : Nat} {ir : Insn} {irs : List Insn} {ops : List Emit}
      (hops : dispatch c.bld c.csrSatp (c.code b i) (linksAt b i) ir = .ok ops) (hfits : Holds n o ops)
      (hj : j + records ops ≤ maxJumps) (h : LoopCut c b n (i + 1) irs (o + (encode ops).length) (j + records ops)) :
      LoopCut c b n i (ir :: irs) o j

/-- The code of `b` is cut short, in a node or in the tail of a page-terminated block. -/
inductive BlockCut (c : JitCall) (b : JitBlock) (n o j : Nat) : Prop
  | loop (h : LoopCut c b n 0 b.irs o j)
  | page {ops : List Emit} (hpage : b.pageTerminated = true) (hops : c.nodeOps b 0 b.irs = .ok ops)
      (hfits : Holds n o ops) (hover : ¬ Holds n (o + (encode ops).length) (c.pageTail b))
      (hj : j + records ops + records (c.pageTail b) ≤ maxJumps)

theorem translateLoop_flushed {i : Nat} {irs : List Insn} {s : JitState} (h : s.shouldFlush = true) :
    c.translateLoop b i irs s = .ok s := by
  cases irs with
  | nil => rfl
  | cons ir irs =>
    unfold translateLoop
    rw [if_pos h]

theorem translate_flushed {s : JitState} (h : s.shouldFlush = true) : c.translate b s = .ok s := by
  unfold translate
  rw [translateLoop_flushed h]
  simp only [bind, Except.bind, h, Bool.not_true, Bool.and_false, Bool.false_eq_true, if_false]

theorem translateLoop_cut {i : Nat} {irs : List Insn} {s s' : JitState} (h : c.translateLoop b i irs s = .ok s')
    (hnf : s.shouldFlush = false) (hsize : s.offset ≤ codeCacheSize) (hj : s.jumps.length ≤ maxJumps)
    (hf : s'.shouldFlush = true) :
    LoopCut c b s.offsetMap.length i irs s.offset s.jumps.length ∧ s'.set = s.set ∧ s'.offsetMap = s.offsetMap := by
  induction irs generalizing i s with
  | nil =>
    cases h
    rw [hnf] at hf
    cases hf
  | cons ir irs ih =>
    unfold translateLoop at h
    rw [hnf] at h
    obtain ⟨ops, hops, h⟩ := bind_ok h
    obtain ⟨t, ht, h⟩ := bind_ok h
    obtain ⟨hset, hmap, hjumps⟩ := emitOps_tables ht hj
    have hcap := emitFrom_cap ht hj
    cases hflush : t.shouldFlush with
    | true =>
      rw [translateLoop_flushed hflush] at h
      cases h
      exact ⟨.here hops ((emitOps_flush_iff ht hnf hsize hj).mp hflush) hcap, hset, hmap⟩
    | false =>
      have hg := emitOps_grew ht hflush
      have hfits : Holds s.offsetMap.length s.offset ops := by
        by_contra hno
        rw [(emitOps_flush_iff ht hnf hsize hj).mpr hno] at hflush
        cases hflush
      obtain ⟨hrest, hset', hmap'⟩ := ih h hflush (hg.size hsize) (by omega)
      rw [hmap, hg.offset, hjumps] at hrest
      exact ⟨.next hops hfits hcap hrest, hset'.trans hset, hmap'.trans hmap⟩

theorem LoopCut.run {n i o j : Nat} {irs : List Insn} (h : LoopCut c b n i irs o j) {s : JitState}
    (hn : s.offsetMap.length = n) (ho : s.offset = o) (hj : s.jumps.length = j) (hnf : s.shouldFlush = false)
    (hsize : o ≤ codeCacheSize) :
    ∃ s', c.translateLoop b i irs s = .ok s' ∧ s'.shouldFlush = true ∧ s'.set = s.set ∧ s'.offsetMap = s.offsetMap := by
  induction h generalizing s with
  | here hops hover hcap =>
    subst hn ho hj
    obtain ⟨t, ht, hset, hmap, -, -⟩ := emitFrom_fits _ s (fun _ => 0) hcap
    have hflush := (emitOps_flush_iff ht hnf hsize (by omega)).mpr hover
    refine ⟨t, ?_, hflush, hset, hmap⟩
    unfold translateLoop
    rw [hnf, if_neg Bool.false_ne_true, hops]
    simp only [bind, Except.bind, emitOps, ht]
    exact translateLoop_flushed hflush
  | next hops hfits hcap _ ih =>
    subst hn ho hj
    obtain ⟨t, ht, hset, hmap, hjumps, hroom⟩ := emitFrom_fits _ s (fun _ => 0) hcap
    have hflush := hroom (hfits.room hnf)
    have hg := emitOps_grew ht hflush
    obtain ⟨s', hs, hf, hset', hmap'⟩ := ih (by rw [hmap]) hg.offset hjumps hflush (hg.offset ▸ hg.size hsize)
    refine ⟨s', ?_, hf, hset'.trans hset, hmap'.trans hmap⟩
    unfold translateLoop
    rw [hnf, if_neg Bool.false_ne_true, hops]
    simp only [bind, Except.bind, emitOps, ht]
    exact hs

/-- **A block that flushes is cut short**, and the tables keep its entry. -/
theorem translate_cut {s s' : JitState} (h : c.translate b s = .ok s') (hnf : s.shouldFlush = false)
    (hsize : s.offset ≤ codeCacheSize) (hj : s.jumps.length ≤ maxJumps) (hf : s'.shouldFlush = true) :
    BlockCut c b s.offsetMap.length s.offset s.jumps.length ∧ s'.set = s.set ∧ s'.offsetMap = s.offsetMap := by
  obtain ⟨t, ht, h⟩ := bind_ok h
  cases hflush : t.shouldFlush with
  | true =>
    rw [hflush, Bool.not_true, Bool.and_false, if_neg Bool.false_ne_true] at h
    cases h
    obtain ⟨hcut, hset, hmap⟩ := translateLoop_cut ht hnf hsize hj hflush
    exact ⟨.loop hcut, hset, hmap⟩
  | false =>
    rw [hflush, Bool.not_false, Bool.and_true] at h
    obtain ⟨ops, hops, hg⟩ := translateLoop_grew ht hflush
    cases hpage : b.pageTerminated with
    | false =>
      rw [hpage, if_neg Bool.false_ne_true] at h
      cases h
      rw [hflush] at hf
      cases hf
    | true =>
      rw [hpage, if_pos rfl] at h
      have hcap := hg.cap hj
      obtain ⟨hset, hmap, -⟩ := emitOps_tables h hcap
      have hover := (emitOps_flush_iff h hflush (hg.size hsize) hcap).mp hf
      have hcap' := emitFrom_cap h hcap
      have hsz := hg.size hsize
      rw [hg.offset] at hover hsz
      rw [hg.offsetMap] at hover
      rw [hg.jumps] at hcap'
      exact ⟨.page hpage hops ⟨hsz, hg.full⟩ hover hcap', hset.trans hg.set, hmap.trans hg.offsetMap⟩

theorem BlockCut.run {n o j : Nat} (h : BlockCut c b n o j) {s : JitState} (hn : s.offsetMap.length = n)
    (ho : s.offset = o) (hj : s.jumps.length = j) (hnf : s.shouldFlush = false) (hsize : o ≤ codeCacheSize) :
    ∃ s', c.translate b s = .ok s' ∧ s'.shouldFlush = true ∧ s'.set = s.set ∧ s'.offsetMap = s.offsetMap := by
  cases h with
  | loop h =>
    obtain ⟨t, ht, hflush, hset, hmap⟩ := h.run hn ho hj hnf hsize
    refine ⟨t, ?_, hflush, hset, hmap⟩
    unfold translate
    rw [ht]
    simp only [bind, Except.bind, hflush, Bool.not_true, Bool.and_false, Bool.false_eq_true, if_false]
  | @page ops hpage hops hfits hover hcap =>
    subst hn ho hj
    obtain ⟨t, ht, -, -, -, hroom⟩ := translateLoop_fits (s := s) hops (by omega)
    have hflush := hroom (hfits.room hnf)
    obtain ⟨ops', hops', hg⟩ := translateLoop_grew ht hflush
    rw [hops] at hops'
    cases hops'
    obtain ⟨s', hs, hset, hmap, -, -⟩ := emitFrom_fits (c.pageTail b) t (fun _ => 0) (by rw [hg.jumps]; exact hcap)
    refine ⟨s', ?_, ?_, hset.trans hg.set, hmap.trans hg.offsetMap⟩
    · unfold translate
      rw [ht]
      simp only [bind, Except.bind, hpage, hflush, Bool.not_false, Bool.and_true, if_true]
      exact hs
    · refine (emitOps_flush_iff hs hflush (hg.size hsize) (by rw [hg.jumps]; omega)).mpr ?_
      rw [hg.offset, hg.offsetMap]
      exact hover

/-! ## The rest of a pass that is cut short -/

/-- What a task does once `should_flush` is set: a block is entered in the tables, and its links are not followed. -/
inductive Rest (c : JitCall) : Table → Task → Table → Prop
  | old {t : Table} {b : JitBlock} (hhas : setHas c.bld t.set (rvHashKey c.bld b.satp b.pcStart) = .ok true) :
      Rest c t (.visit b) t
  | full {t : Table} {b : JitBlock} (hhas : setHas c.bld t.set (rvHashKey c.bld b.satp b.pcStart) = .ok false)
      (hn : t.n = maxBlocks) : Rest c t (.visit b) t
  | entered {t : Table} {b : JitBlock} {set : CodeSet}
      (hhas : setHas c.bld t.set (rvHashKey c.bld b.satp b.pcStart) = .ok false)
      (hadd : setAdd c.bld t.set (rvHashKey c.bld b.satp b.pcStart) = .ok (set, true)) (hn : t.n < maxBlocks) :
      Rest c t (.visit b) ⟨set, t.n + 1⟩
  | none {t : Table} {must : Bool} : Rest c t (.link must none) t
  | known {t : Table} {must : Bool} {pc : Word} (hhas : setHas c.bld t.set (pc.setWidth 64) = .ok true) :
      Rest c t (.link must (some pc)) t
  | missing {t : Table} {pc : Word} (hhas : setHas c.bld t.set (pc.setWidth 64) = .ok false)
      (hget : c.cacheGet pc = Option.none) : Rest c t (.link false (some pc)) t
  | skipped {t : Table} {must : Bool} {pc : Word} {b : JitBlock}
      (hhas : setHas c.bld t.set (pc.setWidth 64) = .ok false) (hget : c.cacheGet pc = some b)
      (hf : c.follows b = false) : Rest c t (.link must (some pc)) t
  | followed {t t' : Table} {must : Bool} {pc : Word} {b : JitBlock}
      (hhas : setHas c.bld t.set (pc.setWidth 64) = .ok false) (hget : c.cacheGet pc = some b)
      (hf : c.follows b = true) (h : Rest c t (.visit b) t') : Rest c t (.link must (some pc)) t'

theorem Rest.run {t t' : Table} {task : Task} (h : Rest c t task t') {s : JitState} {f : Nat} (ht : s.table = t)
    (hflush : s.shouldFlush = true) :
    ∃ s', c.runTask (f + 1) task s = .ok s' ∧ s'.table = t' ∧ s'.shouldFlush = true := by
  subst ht
  induction h with
  | old hhas => exact ⟨s, Chained.run (.old hhas rfl), rfl, hflush⟩
  | full hhas hn => exact ⟨s, Chained.run (.full hhas hn rfl), rfl, hflush⟩
  | @entered b set hhas hadd hn =>
    let s₁ : JitState := { s with set, offsetMap := s.offsetMap ++ [⟨b.pcStart, s.offset, b.satp⟩] }
    have hflush₁ : s₁.shouldFlush = true := hflush
    refine ⟨s₁, Chained.run (.new hhas hadd hn rfl (translate_flushed hflush₁) (.inl ⟨hflush₁, rfl⟩)), ?_, hflush₁⟩
    unfold JitState.table
    simp only [s₁, List.length_append]
    rfl
  | none => exact ⟨s, rfl, rfl, hflush⟩
  | known hhas => exact ⟨s, Followed.run (.old hhas rfl), rfl, hflush⟩
  | missing hhas hget => exact ⟨s, Followed.run (.missing hhas hget rfl rfl), rfl, hflush⟩
  | skipped hhas hget hf => exact ⟨s, Followed.run (.skipped hhas hget hf rfl), rfl, hflush⟩
  | followed hhas hget hf _ ih =>
    obtain ⟨s', hs, hrest⟩ := ih
    exact ⟨s', Followed.run (.followed hhas hget hf hs), hrest⟩

theorem translateChainedBlock_rest {f : Nat} {b : JitBlock} {s s' : JitState}
    (h : c.translateChainedBlock f b s = .ok s') (hflush : s.shouldFlush = true) :
    Rest c s.table (.visit b) s'.table ∧ s'.shouldFlush = true := by
  cases f with
  | zero => cases h
  | succ f =>
    cases translateChainedBlock_ok h with
    | old hhas heq =>
      subst heq
      exact ⟨.old hhas, hflush⟩
    | full hhas hn heq =>
      subst heq
      exact ⟨.full hhas hn, hflush⟩
    | @new set s₁ s₂ hhas hadd hn hins htr hend =>
      have hflush₁ : s₁.shouldFlush = true := by
        rw [hins]
        exact hflush
      rw [translate_flushed hflush₁] at htr
      cases htr
      rcases hend with ⟨-, rfl⟩ | ⟨hno, -⟩
      · refine ⟨?_, hflush₁⟩
        have htable : s'.table = ⟨set, s.table.n + 1⟩ := by
          unfold JitState.table
          rw [hins, List.length_append]
          rfl
        rw [htable]
        exact .entered hhas hadd hn
      · rw [hflush₁] at hno
        cases hno

theorem followLink_rest {f : Nat} {must : Bool} {link : Option Word} {s s' : JitState}
    (h : c.followLink (c.translateChainedBlock f) must link s = .ok s') (hflush : s.shouldFlush = true) :
    Rest c s.table (.link must link) s'.table ∧ s'.shouldFlush = true := by
  cases followLink_ok h with
  | none heq =>
    subst heq
    exact ⟨.none, hflush⟩
  | old hhas heq =>
    subst heq
    exact ⟨.known hhas, hflush⟩
  | missing hhas hget hmust heq =>
    subst heq hmust
    exact ⟨.missing hhas hget, hflush⟩
  | skipped hhas hget hf heq =>
    subst heq
    exact ⟨.skipped hhas hget hf, hflush⟩
  | followed hhas hget hf hb =>
    obtain ⟨hrest, hflush'⟩ := translateChainedBlock_rest hb hflush
    exact ⟨.followed hhas hget hf hrest, hflush'⟩

/-! ## Passes that are cut short -/

/-- The block `b` is entered in the tables `t`, and its calls `ops` are emitted behind `o` bytes and `j` jump
records. -/
structure Enters (c : JitCall) (t : Table) (b : JitBlock) (o j : Nat) (set : CodeSet) (ops : List Emit) : Prop where
  hhas : setHas c.bld t.set (rvHashKey c.bld b.satp b.pcStart) = .ok false
  hadd : setAdd c.bld t.set (rvHashKey c.bld b.satp b.pcStart) = .ok (set, true)
  hn : t.n < maxBlocks
  hops : c.blockOps b = .ok ops
  fits : Holds (t.n + 1) o ops
  jumps : j + records ops ≤ maxJumps

/-- A task that starts with `o` bytes in the buffer and `j` jump records is cut short by a flush and takes the
tables from `t` to `t'`. -/
inductive Cut (c : JitCall) : Table → Nat → Nat → Task → Table → Prop
  | block {t : Table} {b : JitBlock} {set : CodeSet} {o j : Nat}
      (hhas : setHas c.bld t.set (rvHashKey c.bld b.satp b.pcStart) = .ok false)
      (hadd : setAdd c.bld t.set (rvHashKey c.bld b.satp b.pcStart) = .ok (set, true)) (hn : t.n < maxBlocks)
      (h : BlockCut c b (t.n + 1) o j) : Cut c t o j (.visit b) ⟨set, t.n + 1⟩
  | untaken {t t₁ t₂ t₃ : Table} {b : JitBlock} {set : CodeSet} {ops : List Emit} {o j : Nat}
      (hb : Enters c t b o j set ops)
      (h₁ : Cut c ⟨set, t.n + 1⟩ (o + (encode ops).length) (j + records ops) (.link true b.tail.untaken) t₁)
      (h₂ : Rest c t₁ (.link true b.tail.taken) t₂) (h₃ : Rest c t₂ (.link false (c.historyTarget b)) t₃) :
      Cut c t o j (.visit b) t₃
  | taken {t t₁ t₂ t₃ : Table} {b : JitBlock} {set : CodeSet} {ops : List Emit} {o j : Nat} {L : List JitBlock}
      (hb : Enters c t b o j set ops) (h₁ : Walk c ⟨set, t.n + 1⟩ (.link true b.tail.untaken) L t₁)
      (hsize : o + (encode ops).length + c.codeBytes L ≤ codeCacheSize)
      (hj : j + records ops + c.codeJumps L ≤ maxJumps)
      (h₂ : Cut c t₁ (o + (encode ops).length + c.codeBytes L) (j + records ops + c.codeJumps L)
        (.link true b.tail.taken) t₂)
      (h₃ : Rest c t₂ (.link false (c.historyTarget b)) t₃) : Cut c t o j (.visit b) t₃
  | history {t t₁ t₂ t₃ : Table} {b : JitBlock} {set : CodeSet} {ops : List Emit} {o j : Nat} {L L' : List JitBlock}
      (hb : Enters c t b o j set ops) (h₁ : Walk c ⟨set, t.n + 1⟩ (.link true b.tail.untaken) L t₁)
      (h₂ : Walk c t₁ (.link true b.tail.taken) L' t₂)
      (hsize : o + (encode ops).length + c.codeBytes L + c.codeBytes L' ≤ codeCacheSize)
      (hj : j + records ops + c.codeJumps L + c.codeJumps L' ≤ maxJumps)
      (h₃ : Cut c t₂ (o + (encode ops).length + c.codeBytes L + c.codeBytes L')
        (j + records ops + c.codeJumps L + c.codeJumps L') (.link false (c.historyTarget b)) t₃) :
      Cut c t o j (.visit b) t₃
  | followed {t t' : Table} {must : Bool} {pc : Word} {b : JitBlock} {o j : Nat}
      (hhas : setHas c.bld t.set (pc.setWidth 64) = .ok false) (hget : c.cacheGet pc = some b)
      (hf : c.follows b = true) (h : Cut c t o j (.visit b) t') : Cut c t o j (.link must (some pc)) t'

theorem Enters.run {t : Table} {b : JitBlock} {o j : Nat} {set : CodeSet} {ops : List Emit}
    (h : Enters c t b o j set ops) {s : JitState} (ht : s.table = t) (ho : s.offset = o) (hj : s.jumps.length = j)
    (hnf : s.shouldFlush = false) :
    ∃ s', c.translate b { s with set, offsetMap := s.offsetMap ++ [⟨b.pcStart, s.offset, b.satp⟩] } = .ok s' ∧
      s'.shouldFlush = false ∧ s'.table = ⟨set, t.n + 1⟩ ∧ s'.offset = o + (encode ops).length ∧
      s'.jumps.length = j + records ops := by
  subst ht ho hj
  let s₁ : JitState := { s with set, offsetMap := s.offsetMap ++ [⟨b.pcStart, s.offset, b.satp⟩] }
  have hlen : s₁.offsetMap.length = s.table.n + 1 := List.length_append
  obtain ⟨s', hs, -, -, -, hroom⟩ := translate_fits (s := s₁) h.hops h.jumps
  have hflush := hroom (Holds.room (by rw [hlen]; exact h.fits) hnf)
  obtain ⟨ops', hops', hg⟩ := translate_grew hs hflush
  rw [h.hops] at hops'
  cases hops'
  refine ⟨s', hs, hflush, ?_, hg.offset, hg.jumps⟩
  unfold JitState.table
  rw [hg.set, hg.offsetMap, hlen]
  rfl

theorem Cut.run {t t' : Table} {o j : Nat} {task : Task} (h : Cut c t o j task t') {s : JitState} {f : Nat}
    (ht : s.table = t) (ho : s.offset = o) (hj : s.jumps.length = j) (hnf : s.shouldFlush = false)
    (hsize : o ≤ codeCacheSize) (hf : maxBlocks < f + t.n) :
    ∃ s', c.runTask f task s = .ok s' ∧ s'.table = t' ∧ s'.shouldFlush = true := by
  induction h generalizing s f with
  | @block t b set o j hhas hadd hn hcut =>
    subst ht ho hj
    obtain ⟨f, rfl⟩ := Nat.exists_eq_succ_of_ne_zero (show f ≠ 0 by omega)
    let s₁ : JitState := { s with set, offsetMap := s.offsetMap ++ [⟨b.pcStart, s.offset, b.satp⟩] }
    obtain ⟨s', hs, hflush, hset, hmap⟩ := hcut.run (s := s₁) List.length_append rfl rfl hnf hsize
    refine ⟨s', Chained.run (.new hhas hadd hn rfl hs (.inl ⟨hflush, rfl⟩)), ?_, hflush⟩
    unfold JitState.table
    rw [hset, hmap]
    simp only [s₁, List.length_append]
    rfl
  | followed hhas hget hfol _ ih =>
    obtain ⟨s', hs, hrest⟩ := ih ht ho hj hnf hsize hf
    subst ht
    exact ⟨s', Followed.run (.followed hhas hget hfol hs), hrest⟩
  | untaken hb _ h₂ h₃ ih =>
    obtain ⟨f, rfl⟩ := Nat.exists_eq_succ_of_ne_zero (show f ≠ 0 by have := hb.hn; omega)
    obtain ⟨f, rfl⟩ := Nat.exists_eq_succ_of_ne_zero (show f ≠ 0 by have := hb.hn; omega)
    obtain ⟨s₂, htr, hnf₂, ht₂, ho₂, hj₂⟩ := hb.run ht ho hj hnf
    obtain ⟨s₃, hs₃, ht₃, hf₃⟩ := ih ht₂ ho₂ hj₂ hnf₂ hb.fits.size (f := f + 1) (by simp only; omega)
    obtain ⟨s₄, hs₄, ht₄, hf₄⟩ := h₂.run ht₃ hf₃ (f := f)
    obtain ⟨s₅, hs₅, ht₅, hf₅⟩ := h₃.run ht₄ hf₄ (f := f)
    subst ht
    exact ⟨s₅, Chained.run (.new hb.hhas hb.hadd hb.hn rfl htr (.inr ⟨hnf₂, s₃, s₄, hs₃, hs₄, hs₅⟩)), ht₅, hf₅⟩
  | taken hb h₁ hbytes hjumps _ h₃ ih =>
    obtain ⟨f, rfl⟩ := Nat.exists_eq_succ_of_ne_zero (show f ≠ 0 by have := hb.hn; omega)
    obtain ⟨f, rfl⟩ := Nat.exists_eq_succ_of_ne_zero (show f ≠ 0 by have := hb.hn; omega)
    obtain ⟨s₂, htr, hnf₂, ht₂, ho₂, hj₂⟩ := hb.run ht ho hj hnf
    have hle₁ := h₁.le hb.hn
    simp only at hle₁
    obtain ⟨s₃, hs₃, ht₃, hnf₃, ho₃, hj₃⟩ := h₁.run (f := f + 1) ht₂ hnf₂ (by rw [ho₂]; exact hbytes)
      (by rw [hj₂]; exact hjumps) hb.hn (by simp only; omega)
    obtain ⟨s₄, hs₄, ht₄, hf₄⟩ := ih ht₃ (by rw [ho₃, ho₂]) (by rw [hj₃, hj₂]) hnf₃ hbytes (f := f + 1) (by omega)
    obtain ⟨s₅, hs₅, ht₅, hf₅⟩ := h₃.run ht₄ hf₄ (f := f)
    subst ht
    exact ⟨s₅, Chained.run (.new hb.hhas hb.hadd hb.hn rfl htr (.inr ⟨hnf₂, s₃, s₄, hs₃, hs₄, hs₅⟩)), ht₅, hf₅⟩
  | history hb h₁ h₂ hbytes hjumps _ ih =>
    obtain ⟨f, rfl⟩ := Nat.exists_eq_succ_of_ne_zero (show f ≠ 0 by have := hb.hn; omega)
    obtain ⟨s₂, htr, hnf₂, ht₂, ho₂, hj₂⟩ := hb.run ht ho hj hnf
    have hle₁ := h₁.le hb.hn
    have hle₂ := h₂.le hle₁.2
    simp only at hle₁
    obtain ⟨s₃, hs₃, ht₃, hnf₃, ho₃, hj₃⟩ := h₁.run (f := f) ht₂ hnf₂ (by omega) (by omega) hb.hn (by simp only; omega)
    obtain ⟨s₄, hs₄, ht₄, hnf₄, ho₄, hj₄⟩ := h₂.run (f := f) ht₃ hnf₃ (by omega) (by omega) hle₁.2 (by omega)
    obtain ⟨s₅, hs₅, ht₅, hf₅⟩ := ih ht₄ (by rw [ho₄, ho₃, ho₂]) (by rw [hj₄, hj₃, hj₂]) hnf₄ hbytes (f := f) (by omega)
    subst ht
    exact ⟨s₅, Chained.run (.new hb.hhas hb.hadd hb.hn rfl htr (.inr ⟨hnf₂, s₃, s₄, hs₃, hs₄, hs₅⟩)), ht₅, hf₅⟩

theorem followLink_cut {rec : JitBlock → JitState → Except JitFault JitState}
    (hrec : ∀ {b s s'}, rec b s = .ok s' → s.shouldFlush = false → s.offset ≤ codeCacheSize →
      s.jumps.length ≤ maxJumps → s'.shouldFlush = true → Cut c s.table s.offset s.jumps.length (.visit b) s'.table)
    {must : Bool} {link : Option Word} {s s' : JitState} (h : c.followLink rec must link s = .ok s')
    (hnf : s.shouldFlush = false) (hsize : s.offset ≤ codeCacheSize) (hj : s.jumps.length ≤ maxJumps)
    (hf : s'.shouldFlush = true) : Cut c s.table s.offset s.jumps.length (.link must link) s'.table := by
  have hne : s' ≠ s := by
    rintro rfl
    rw [hnf] at hf
    cases hf
  cases followLink_ok h with
  | none heq | old _ heq | missing _ _ _ heq | skipped _ _ _ heq => exact absurd heq hne
  | followed hhas hget hfol hb => exact .followed hhas hget hfol (hrec hb hnf hsize hj hf)

/-- **A call that flushes is cut short.** -/
theorem translateChainedBlock_cut {f : Nat} {b : JitBlock} {s s' : JitState}
    (h : c.translateChainedBlock f b s = .ok s') (hnf : s.shouldFlush = false) (hsize : s.offset ≤ codeCacheSize)
    (hj : s.jumps.length ≤ maxJumps) (hf : s'.shouldFlush = true) :
    Cut c s.table s.offset s.jumps.length (.visit b) s'.table := by
  induction f generalizing b s s' with
  | zero => cases h
  | succ f ih =>
    have hne : s' ≠ s := by
      rintro rfl
      rw [hnf] at hf
      cases hf
    cases translateChainedBlock_ok h with
    | old _ heq | full _ _ heq => exact absurd heq hne
    | @new set s₁ s₂ hhas hadd hn hins htr hend =>
      have hlen : s₁.offsetMap.length = s.table.n + 1 := by
        rw [hins, List.length_append]
        rfl
      have htable : ∀ x : JitState, x.set = s₁.set → x.offsetMap = s₁.offsetMap → x.table = ⟨set, s.table.n + 1⟩ := by
        intro x hset hmap
        unfold JitState.table
        rw [hset, hmap, hlen, hins]
        rfl
      have ho₁ : s₁.offset = s.offset := by rw [hins]
      have hj₁ : s₁.jumps = s.jumps := by rw [hins]
      have hnf₁ : s₁.shouldFlush = false := by
        rw [hins]
        exact hnf
      rcases hend with ⟨hflush, rfl⟩ | ⟨hflush, s₃, s₄, h₃, h₄, h₅⟩
      · obtain ⟨hcut, hset, hmap⟩ := translate_cut htr hnf₁ (ho₁ ▸ hsize) (hj₁ ▸ hj) hflush
        rw [hlen, ho₁, hj₁] at hcut
        rw [htable _ hset hmap]
        exact .block hhas hadd hn hcut
      · obtain ⟨ops, hops, hg⟩ := translate_grew htr hflush
        have ht₂ := htable s₂ hg.set hg.offsetMap
        have hsize₂ := hg.size (ho₁ ▸ hsize)
        have hcap₂ := hg.cap (hj₁ ▸ hj)
        have ho₂ : s₂.offset = s.offset + (encode ops).length := by rw [hg.offset, ho₁]
        have hj₂ : s₂.jumps.length = s.jumps.length + records ops := by rw [hg.jumps, hj₁]
        have hb : Enters c s.table b s.offset s.jumps.length set ops := by
          refine ⟨hhas, hadd, hn, hops, ⟨ho₂ ▸ hsize₂, fun hlast => hg.full ?_⟩, hj₂ ▸ hcap₂⟩
          rw [hlen, hlast]
        cases hflush₃ : s₃.shouldFlush with
        | true =>
          have hcut := followLink_cut ih h₃ hflush hsize₂ hcap₂ hflush₃
          obtain ⟨hrest, hflush₄⟩ := followLink_rest h₄ hflush₃
          obtain ⟨hrest', -⟩ := followLink_rest h₅ hflush₄
          rw [ht₂, ho₂, hj₂] at hcut
          exact .untaken hb hcut hrest hrest'
        | false =>
          obtain ⟨L, hw⟩ := followLink_walked translateChainedBlock_walked h₃ hflush₃
          have hsize₃ := hw.size hsize₂
          have hcap₃ := hw.cap hcap₂
          have ho₃ := hw.offset
          have hj₃ := hw.jumps
          have hwalk := hw.walk
          rw [ho₂] at ho₃
          rw [hj₂] at hj₃
          rw [ht₂] at hwalk
          cases hflush₄ : s₄.shouldFlush with
          | true =>
            have hcut := followLink_cut ih h₄ hflush₃ hsize₃ hcap₃ hflush₄
            obtain ⟨hrest, -⟩ := followLink_rest h₅ hflush₄
            rw [ho₃, hj₃] at hcut
            exact .taken hb hwalk (ho₃ ▸ hsize₃) (hj₃ ▸ hcap₃) hcut hrest
          | false =>
            obtain ⟨L', hw'⟩ := followLink_walked translateChainedBlock_walked h₄ hflush₄
            have hsize₄ := hw'.size hsize₃
            have hcap₄ := hw'.cap hcap₃
            have ho₄ := hw'.offset
            have hj₄ := hw'.jumps
            rw [ho₃] at ho₄
            rw [hj₃] at hj₄
            have hcut := followLink_cut ih h₅ hflush₄ hsize₄ hcap₄ hf
            rw [ho₄, hj₄] at hcut
            exact .history hb hwalk hw'.walk (ho₄ ▸ hsize₄) (hj₄ ▸ hcap₄) hcut

/-! ## Every pass ends -/

/-- At least `n` blocks are in the offset map, and no table is over its limit. -/
structure InTables (n : Nat) (s : JitState) : Prop where
  grown : n ≤ s.offsetMap.length
  blocks : s.offsetMap.length ≤ maxBlocks
  jumps : s.jumps.length ≤ maxJumps

theorem InTables.emitOps {n : Nat} {s s' : JitState} {ops : List Emit} (h : InTables n s)
    (hs : emitOps ops s = .ok s') : InTables n s' := by
  obtain ⟨-, hmap, hjumps⟩ := emitOps_tables hs h.jumps
  have hcap := emitFrom_cap hs h.jumps
  exact ⟨hmap ▸ h.grown, hmap ▸ h.blocks, hjumps ▸ hcap⟩

theorem inTables_preserves (c : JitCall) (n : Nat) : c.Preserves (InTables n) where
  node _ h hs := h.emitOps hs
  page h hs := h.emitOps hs
  insert _ _ hn h := by
    refine ⟨?_, ?_, h.jumps⟩
    · rw [List.length_append]
      exact h.grown.trans (Nat.le_add_right _ _)
    · rw [List.length_append]
      exact hn

theorem emitFrom_error {ops : List Emit} {s : JitState} {l : Locs} {e : JitFault}
    (h : emitFrom ops (s, l) = .error e) : e = .assert := by
  have haddr : ∀ {pc satp : Word} {for_ : Nat → JumpFor} {t : JitState},
      t.emitJumpTargetAddress pc satp for_ = .error e → e = .assert := by
    intro pc satp for_ t ht
    unfold emitJumpTargetAddress at ht
    split_ifs at ht
    exact (Except.error.inj ht).symm
  induction ops generalizing s l with
  | nil => cases h
  | cons op ops ih =>
    rcases bind_error h with hop | ⟨⟨t, l'⟩, -, hrest⟩
    · cases op with
      | bytes data | jcc v code => cases hop
      | target v =>
        have ht := map_error hop
        unfold emitJumpTargetOffset at ht
        split_ifs at ht
        exact (Except.error.inj ht).symm
      | jmp pc satp | exit => exact haddr (map_error hop)
    · exact ih hrest

theorem dispatch_error {bld : JitBuild} {csrSatp : Word} {code : NodeCode} {lk : TailLinks} {ir : Insn}
    {e : JitFault} (h : dispatch bld csrSatp code lk ir = .error e) : e ≠ .outOfFuel := by
  rintro rfl
  unfold dispatch genIndirect at h
  split at h
  all_goals first | cases h | (split at h <;> cases h)

theorem translateLoop_error {i : Nat} {irs : List Insn} {s : JitState} {e : JitFault}
    (h : c.translateLoop b i irs s = .error e) : e ≠ .outOfFuel := by
  induction irs generalizing i s with
  | nil => cases h
  | cons ir irs ih =>
    unfold translateLoop at h
    split_ifs at h
    rcases bind_error h with hops | ⟨ops, -, h⟩
    · exact dispatch_error hops
    · rcases bind_error h with hemit | ⟨t, -, h⟩
      · rw [emitFrom_error hemit]
        decide
      · exact ih h

theorem translate_error {s : JitState} {e : JitFault} (h : c.translate b s = .error e) : e ≠ .outOfFuel := by
  rcases bind_error h with hloop | ⟨t, -, h⟩
  · exact translateLoop_error hloop
  · split_ifs at h
    rw [emitFrom_error h]
    decide

theorem setHas_error {bld : JitBuild} {t : CodeSet} {key : BitVec 64} {e : JitFault}
    (h : setHas bld t key = .error e) : e ≠ .outOfFuel := by
  rintro rfl
  unfold setHas at h
  simp only at h
  split_ifs at h
  cases h

theorem setAdd_error {bld : JitBuild} {t : CodeSet} {key : BitVec 64} {e : JitFault}
    (h : setAdd bld t key = .error e) : e ≠ .outOfFuel := by
  rintro rfl
  unfold setAdd at h
  simp only at h
  split_ifs at h
  cases h

theorem followLink_error {rec : JitBlock → JitState → Except JitFault JitState} {must : Bool} {link : Option Word}
    {s : JitState} (hrec : ∀ b, rec b s ≠ .error .outOfFuel) : c.followLink rec must link s ≠ .error .outOfFuel := by
  intro h
  cases link with
  | none => cases h
  | some pc =>
    rcases bind_error h with hhas | ⟨has, -, h⟩
    · exact setHas_error hhas rfl
    cases has with
    | true => cases h
    | false =>
      simp only [Bool.false_eq_true, if_false] at h
      cases hget : c.cacheGet pc with
      | none =>
        rw [hget] at h
        cases must <;> cases h
      | some x =>
        simp only [hget] at h
        split_ifs at h
        exact hrec x h

/-- **The recursion ends**: a nested call has one more block in the offset map. -/
theorem translateChainedBlock_fuel {f : Nat} {s : JitState} (hs : InTables 0 s)
    (hf : maxBlocks < f + s.offsetMap.length) : c.translateChainedBlock f b s ≠ .error .outOfFuel := by
  induction f generalizing b s with
  | zero =>
    have := hs.blocks
    omega
  | succ f ih =>
    intro h
    unfold translateChainedBlock at h
    rcases bind_error h with hhas | ⟨has, hhas, h⟩
    · exact setHas_error hhas rfl
    split_ifs at h with hold hfull
    rcases bind_error h with hadd | ⟨⟨set, added⟩, hadd, h⟩
    · exact setAdd_error hadd rfl
    cases added with
    | false => cases h
    | true =>
      rcases bind_error h with hins | ⟨s₁, hins, h⟩
      · unfold offsetMapInsert at hins
        split_ifs at hins
        cases hins
      rcases bind_error h with htr | ⟨s₂, htr, h⟩
      · exact translate_error htr rfl
      -- the states that the links are followed from
      have hn : s.offsetMap.length < maxBlocks := Nat.lt_of_le_of_ne hs.blocks hfull
      have h₁ : InTables (s.offsetMap.length + 1) s₁ := by
        unfold offsetMapInsert at hins
        rw [if_pos hn] at hins
        cases hins
        refine ⟨?_, ?_, hs.jumps⟩ <;> rw [List.length_append]
        · exact Nat.le_refl _
        · exact hn
      have h₂ := (inTables_preserves c _).translate h₁ htr
      have hnext : ∀ {t : JitState}, InTables (s.offsetMap.length + 1) t → ∀ x,
          c.translateChainedBlock f x t ≠ .error .outOfFuel := by
        intro t ht x
        refine ih ⟨Nat.zero_le _, ht.blocks, ht.jumps⟩ ?_
        have := ht.grown
        omega
      have hkeep : ∀ {must : Bool} {link : Option Word} {t t' : JitState}, InTables (s.offsetMap.length + 1) t →
          c.followLink (c.translateChainedBlock f) must link t = .ok t' → InTables (s.offsetMap.length + 1) t' :=
        fun ht hl => Preserves.followLink (inTables_preserves c _).translateChainedBlock ht hl
      split_ifs at h
      rcases bind_error h with hl | ⟨s₃, hs₃, h⟩
      · exact followLink_error (hnext h₂) hl
      have h₃ := hkeep h₂ hs₃
      rcases bind_error h with hl | ⟨s₄, hs₄, h⟩
      · exact followLink_error (hnext h₃) hl
      · exact followLink_error (hnext (hkeep h₃ hs₄)) h

/-! ## Passes that flush -/

/-- The pass from `s` is cut short: the buffer or the offset map is full before any other table is. -/
def IsCut (c : JitCall) (b : JitBlock) (s : JitState) : Prop := ∃ t, Cut c s.table s.offset 0 (.visit b) t

/-- **A pass flushes if and only if it is cut short.** -/
theorem jitPass_cut_iff {s : JitState} (hnf : s.shouldFlush = false) (hsize : s.offset ≤ codeCacheSize) :
    (∃ s', c.jitPass b s = .ok s' ∧ s'.shouldFlush = true) ↔ c.IsCut b s := by
  constructor
  · rintro ⟨s', hpass, hf⟩
    exact ⟨s'.table, translateChainedBlock_cut hpass hnf hsize (Nat.zero_le _) hf⟩
  · rintro ⟨t, hcut⟩
    obtain ⟨s', hs, -, hf⟩ := hcut.run (s := { s with jumps := [], made := [] }) (f := maxBlocks + 1) rfl rfl rfl hnf
      hsize (by omega)
    exact ⟨s', hs, hf⟩

theorem jitPass_inTables {s s' : JitState} (h : InTables 0 s) (hpass : c.jitPass b s = .ok s') : InTables 0 s' := by
  have hstart : InTables 0 { s with jumps := [], made := [] } := ⟨h.grown, h.blocks, Nat.zero_le _⟩
  exact (inTables_preserves c 0).translateChainedBlock (n := maxBlocks + 1) hstart hpass

theorem InTables.flushed {n : Nat} {s : JitState} (h : InTables n s) : InTables 0 (codeCacheFlush s) :=
  ⟨Nat.zero_le _, Nat.zero_le _, h.jumps⟩

end JitCall

/-! ## The whole call -/

theorem JitReachable.flush {bld : JitBuild} {s : JitState} (h : JitReachable bld s) : s.shouldFlush = false := by
  cases h with
  | init | flushed => rfl
  | translated _ _ _ hnf => exact hnf

theorem JitReachable.inTables {bld : JitBuild} {s : JitState} (h : JitReachable bld s) : JitCall.InTables 0 s := by
  induction h with
  | init => exact ⟨Nat.zero_le _, Nat.zero_le _, Nat.zero_le _⟩
  | translated _ _ hpass _ _ ih =>
    have hs := JitCall.jitPass_inTables ih hpass
    exact ⟨hs.grown, hs.blocks, hs.jumps⟩
  | flushed _ _ hpass _ ih => exact (JitCall.jitPass_inTables ih hpass).flushed

theorem OffsetEntry.isFor_of_key {bld : JitBuild} {pc satp : Word} {e : OffsetEntry}
    (h : e.key bld = rvHashKey bld satp pc) : e.isFor bld pc satp = true := by
  unfold key rvHashKey at h
  unfold isFor
  split_ifs at h with hsys
  · have hpc := congrArg (BitVec.setWidth 32) h
    have hsatp := congrArg (BitVec.extractLsb' 32 32) h
    simp only [BitVec.setWidth_append_eq_right, BitVec.extractLsb'_append_eq_left] at hpc hsatp
    simp [hpc, hsatp]
  · have hpc := congrArg (BitVec.setWidth 32) h
    simp only [BitVec.setWidth_setWidth_of_le, Nat.reduceLeDiff, BitVec.setWidth_eq] at hpc
    simp [hpc, hsys]

namespace JitCall

variable {c : JitCall} {b : JitBlock}

theorem Fits.congr {s s' : JitState} (h : c.Fits b s) (ht : s'.table = s.table) (ho : s'.offset = s.offset) :
    c.Fits b s' := by
  obtain ⟨L, t, hw, hbytes, hjumps⟩ := h
  exact ⟨L, t, ht ▸ hw, ho ▸ hbytes, hjumps⟩

/-- **The loop ends if and only if the first pass is not cut short or the second is not.** -/
theorem jitRestart_ok_iff {retpolineLoc : Word} {s : JitState} (hnf : s.shouldFlush = false)
    (hsize : s.offset ≤ codeCacheSize) (hs : InTables 0 s) :
    (∃ n s', c.jitRestart retpolineLoc n b s = .ok s') ↔ c.Fits b s ∨ c.IsCut b s ∧ c.Fits b jitStateInit := by
  have horg : orgSize ≤ codeCacheSize := by decide
  constructor
  · rintro ⟨n, s', h⟩
    induction n generalizing s with
    | zero => cases h
    | succ n ih =>
      obtain ⟨t, hpass, h⟩ := bind_ok h
      split_ifs at h with hf
      · -- the tables are those of the beginning
        have hempty : c.Fits b (codeCacheFlush t) := by
          rcases ih (s := codeCacheFlush t) rfl horg (jitPass_inTables hs hpass).flushed h with h | ⟨-, h⟩
          · exact h
          · exact h.congr rfl rfl
        exact .inr ⟨(jitPass_cut_iff hnf hsize).mp ⟨t, hpass, hf⟩, hempty.congr rfl rfl⟩
      · exact .inl ((jitPass_fits_iff hnf hsize hs.blocks).mp ⟨t, hpass, Bool.not_eq_true _ ▸ hf⟩)
  · have hone : ∀ {t : JitState}, t.shouldFlush = false → t.offset ≤ codeCacheSize → t.offsetMap.length ≤ maxBlocks →
        c.Fits b t → ∃ s', c.jitRestart retpolineLoc 1 b t = .ok s' := by
      intro t hnf hsize hn hfits
      obtain ⟨t', hpass, hf⟩ := (jitPass_fits_iff hnf hsize hn).mpr hfits
      unfold jitRestart
      rw [hpass]
      exact ⟨resolveJumps c.bld retpolineLoc t', if_neg (by rw [hf]; exact Bool.false_ne_true)⟩
    rintro (hfits | ⟨hcut, hfits⟩)
    · exact ⟨1, hone hnf hsize hs.blocks hfits⟩
    · obtain ⟨t, hpass, hf⟩ := (jitPass_cut_iff hnf hsize).mpr hcut
      obtain ⟨s', h⟩ := hone (t := codeCacheFlush t) rfl horg (Nat.zero_le _) (hfits.congr rfl rfl)
      refine ⟨2, s', ?_⟩
      unfold jitRestart
      rw [hpass]
      exact (if_pos hf).trans h

/-- The call returns, and no table is over its limit. -/
def EndsWithin (c : JitCall) (retpolineLoc : Word) (b : JitBlock) (s : JitState) : Prop :=
  ∃ n s', c.jitTranslate retpolineLoc n b s = .ok s' ∧ s'.jumps.length ≤ maxJumps ∧ s'.offsetMap.length ≤ maxBlocks

theorem jitRestart_inTables {retpolineLoc : Word} {n : Nat} {s s' : JitState} (hs : InTables 0 s)
    (h : c.jitRestart retpolineLoc n b s = .ok s') : InTables 0 s' := by
  induction n generalizing s with
  | zero => cases h
  | succ n ih =>
    obtain ⟨t, hpass, h⟩ := bind_ok h
    have ht := jitPass_inTables hs hpass
    split_ifs at h
    · exact ih ht.flushed h
    · cases h
      exact ⟨ht.grown, ht.blocks, ht.jumps⟩

theorem Walk.has {t t' : Table} {L : List JitBlock} (h : Walk c t (.visit b) L t') :
    ∃ has, setHas c.bld t.set (rvHashKey c.bld b.satp b.pcStart) = .ok has := by
  cases h with
  | old hhas | full hhas | new hhas => exact ⟨_, hhas⟩

theorem Cut.hasNot {t t' : Table} {o j : Nat} (h : Cut c t o j (.visit b) t') :
    setHas c.bld t.set (rvHashKey c.bld b.satp b.pcStart) = .ok false := by
  cases h with
  | block hhas => exact hhas
  | untaken hb | taken hb | history hb => exact hb.hhas

theorem endsWithin_iff {retpolineLoc : Word} {s : JitState} (h : JitReachable c.bld s) :
    c.EndsWithin retpolineLoc b s ↔ c.Fits b s ∨ c.IsCut b s ∧ c.Fits b jitStateInit := by
  have hs := h.inTables
  have hsize := h.inv.upper
  constructor
  · rintro ⟨n, s', hcall, -, -⟩
    obtain ⟨has, hhas, hcall⟩ := bind_ok hcall
    cases has with
    | true => exact .inl ⟨[], s.table, .old hhas, hsize, Nat.zero_le _⟩
    | false => exact (jitRestart_ok_iff h.flush hsize hs).mp ⟨n, s', hcall⟩
  · intro hcond
    have hhas : ∃ has, setHas c.bld s.set (rvHashKey c.bld b.satp b.pcStart) = .ok has := by
      rcases hcond with ⟨L, t, hw, -, -⟩ | ⟨⟨t, hcut⟩, -⟩
      · exact hw.has
      · exact ⟨false, hcut.hasNot⟩
    obtain ⟨has, hhas⟩ := hhas
    unfold EndsWithin jitTranslate
    rw [hhas]
    cases has with
    | true =>
      -- a key of the set has an entry
      obtain ⟨e, he, hkey⟩ := h.inv.covered _ _ (setHas_true hhas)
      obtain ⟨e', hfind⟩ := Option.isSome_iff_exists.mp
        (List.find?_isSome.mpr ⟨e, he, OffsetEntry.isFor_of_key hkey⟩)
      refine ⟨0, s, ?_, hs.jumps, hs.blocks⟩
      simp only [bind, Except.bind, if_true]
      rw [hfind]
    | false =>
      obtain ⟨n, s', hrun⟩ : ∃ n s', c.jitRestart retpolineLoc n b s = .ok s' :=
        (jitRestart_ok_iff h.flush hsize hs).mpr hcond
      have ht := jitRestart_inTables hs hrun
      exact ⟨n, s', hrun, ht.jumps, ht.blocks⟩

/-- Where the set and the jump records have room for every linked block, only the buffer and the offset map
decide, and the call ends if the blocks fit in them when they are empty. -/
theorem Spacious.endsWithin_iff {retpolineLoc : Word} {s : JitState} (hsp : c.Spacious b s) (hlk : c.Linked b)
    (h : JitReachable c.bld s) : c.EndsWithin retpolineLoc b s ↔ c.Fits b s ∨ c.Fits b jitStateInit := by
  rw [JitCall.endsWithin_iff h]
  refine ⟨Or.imp_right And.right, ?_⟩
  rintro (hfits | hempty)
  · exact .inl hfits
  · let s₀ : JitState := { s with jumps := [], made := [] }
    have hsp₀ : c.Spacious b s₀ := ⟨hsp.key, hsp.jumps, hsp.bucket⟩
    have hstart : Inserted c b s₀ s₀ [] :=
      ⟨.nil, fun x hx => absurd hx List.not_mem_nil, fun x hx => absurd hx List.not_mem_nil,
        fun i => Nat.le_add_right _ _, Nat.zero_le _, h.inTables.blocks⟩
    obtain ⟨s', -, hpass, -, -⟩ := hstart.translateChainedBlock hlk hsp₀ (f := maxBlocks + 1) .root (by omega)
    cases hf : s'.shouldFlush with
    | false => exact .inl ((jitPass_fits_iff h.flush h.inv.upper h.inTables.blocks).mp ⟨s', hpass, hf⟩)
    | true => exact .inr ⟨(jitPass_cut_iff h.flush h.inv.upper).mp ⟨s', hpass, hf⟩, hempty⟩

/-! ## Blocks with too many jump records -/

theorem LoopCut.over {n i o j : Nat} {irs : List Insn} (h : LoopCut c b n i irs o j) {ops : List Emit}
    (hops : c.nodeOps b i irs = .ok ops) : ¬ Holds n o ops := by
  intro hholds
  induction h generalizing ops with
  | here hhead hover hcap =>
    obtain ⟨head, hhead', hops⟩ := bind_ok hops
    obtain ⟨rest, -, hops⟩ := bind_ok hops
    cases hops
    cases hhead.symm.trans hhead'
    exact hover hholds.left
  | next hhead _ _ _ ih =>
    obtain ⟨head, hhead', hops⟩ := bind_ok hops
    obtain ⟨rest, hrest, hops⟩ := bind_ok hops
    cases hops
    cases hhead.symm.trans hhead'
    exact ih hrest hholds.right

theorem BlockCut.over {n o j : Nat} (h : BlockCut c b n o j) {ops : List Emit} (hops : c.blockOps b = .ok ops) :
    ¬ Holds n o ops := by
  intro hholds
  obtain ⟨nodes, hnodes, hops⟩ := bind_ok hops
  cases hops
  cases h with
  | loop h => exact h.over hnodes hholds.left
  | page hpage hnodes' _ hover =>
    cases hnodes'.symm.trans hnodes
    rw [if_pos hpage] at hholds
    exact hover hholds.right

theorem translateLoop_assert {i : Nat} {irs : List Insn} {s : JitState} {ops : List Emit} {e : JitFault}
    (hops : c.nodeOps b i irs = .ok ops) (h : c.translateLoop b i irs s = .error e) : e = .assert := by
  induction irs generalizing i s ops with
  | nil => cases h
  | cons ir irs ih =>
    obtain ⟨head, hhead, hops⟩ := bind_ok hops
    obtain ⟨rest, hrest, -⟩ := bind_ok hops
    unfold translateLoop at h
    split_ifs at h
    rcases bind_error h with hdispatch | ⟨ops', -, h⟩
    · cases hhead.symm.trans hdispatch
    rcases bind_error h with hemit | ⟨t, -, h⟩
    · exact emitFrom_error hemit
    · exact ih hrest h

/-- A block with more records than there is room for fails an assertion. -/
theorem translate_crowded {s : JitState} {ops : List Emit} (hops : c.blockOps b = .ok ops) (hroom : Room s ops)
    (hj : s.jumps.length ≤ maxJumps) (hover : maxJumps < s.jumps.length + records ops) :
    c.translate b s = .error .assert := by
  cases htr : c.translate b s with
  | error e =>
    obtain ⟨nodes, hnodes, -⟩ := bind_ok hops
    rcases bind_error htr with hloop | ⟨t, -, hpage⟩
    · rw [translateLoop_assert hnodes hloop]
    · split_ifs at hpage
      rw [emitFrom_error hpage]
  | ok s' =>
    exfalso
    have hsize : s.offset ≤ codeCacheSize := le_trans (Nat.le_add_right _ _) hroom.size
    cases hf : s'.shouldFlush with
    | true =>
      obtain ⟨hcut, -, -⟩ := translate_cut htr hroom.flush hsize hj hf
      exact hcut.over hops ⟨hroom.size, hroom.full⟩
    | false =>
      obtain ⟨ops', hops', hg⟩ := translate_grew htr hf
      cases hops'.symm.trans hops
      have hcap := hg.cap hj
      rw [hg.jumps] at hcap
      omega

/-- **A block with more than `MAX_JUMPS` records of its own is never translated**, whatever is linked to it. -/
theorem jitTranslate_crowded {s : JitState} {set : CodeSet} {ops : List Emit}
    (hhas : setHas c.bld s.set (rvHashKey c.bld b.satp b.pcStart) = .ok false)
    (hadd : setAdd c.bld s.set (rvHashKey c.bld b.satp b.pcStart) = .ok (set, true))
    (hn : s.offsetMap.length < maxBlocks) (hnf : s.shouldFlush = false) (hops : c.blockOps b = .ok ops)
    (hfits : Holds (s.offsetMap.length + 1) s.offset ops) (hover : maxJumps < records ops) (retpolineLoc : Word)
    (n : Nat) : c.jitTranslate retpolineLoc (n + 1) b s = .error .assert := by
  let s₁ : JitState :=
    { s with set, jumps := [], made := [], offsetMap := s.offsetMap ++ [⟨b.pcStart, s.offset, b.satp⟩] }
  have htr : c.translate b s₁ = .error .assert := by
    refine translate_crowded hops (Holds.room ?_ hnf) (Nat.zero_le _) (hover.trans_le (Nat.le_add_left _ _))
    simp only [s₁, List.length_append]
    exact hfits
  have hpass : c.jitPass b s = .error .assert := by
    unfold jitPass translateChainedBlock offsetMapInsert
    simp only [hhas, hadd, bind, Except.bind, Bool.false_eq_true, if_false, if_neg hn.ne, Bool.not_true, if_pos hn]
    rw [htr]
  unfold jitTranslate jitRestart
  simp only [hhas, bind, Except.bind, Bool.false_eq_true, if_false, hpass]

/-- Nodes that have `r` records and at most `k` bytes each. -/
theorem nodeOps_each {r k i : Nat} {irs : List Insn}
    (h : ∀ j, ∀ ir ∈ irs, ∃ ops, dispatch c.bld c.csrSatp (c.code b j) (linksAt b j) ir = .ok ops ∧
      records ops = r ∧ (encode ops).length ≤ k) :
    ∃ ops, c.nodeOps b i irs = .ok ops ∧ records ops = irs.length * r ∧ (encode ops).length ≤ irs.length * k := by
  induction irs generalizing i with
  | nil => exact ⟨[], rfl, (Nat.zero_mul _).symm, Nat.zero_le _⟩
  | cons ir irs ih =>
    obtain ⟨head, hhead, hr, hk⟩ := h i ir List.mem_cons_self
    obtain ⟨rest, hrest, hr', hk'⟩ := ih (i := i + 1) fun j x hx => h j x (List.mem_cons_of_mem _ hx)
    refine ⟨head ++ rest, ?_, ?_, ?_⟩
    · unfold nodeOps
      rw [hhead, hrest]
      rfl
    · rw [records_append, hr, hr', List.length_cons, Nat.add_mul, Nat.one_mul, Nat.add_comm]
    · rw [encode_append, List.length_append, List.length_cons, Nat.add_mul, Nat.one_mul]
      omega

end JitCall

/-! ## Two calls -/

/-- `jal x0, 0x1000` at 0x1000. -/
def jalThere : JitBlock where
  pcStart := 0x1000
  pcEnd := 0x1004
  irs := [{ opcode := .jal, imm := 0x1000, pc := 0x1000 }]
  tail := { taken := some 0x2000 }

/-- `jal x0, -0x1000` at 0x2000. -/
def jalBack : JitBlock where
  pcStart := 0x2000
  pcEnd := 0x2004
  irs := [{ opcode := .jal, imm := 0xfffff000, pc := 0x2000 }]
  tail := { taken := some 0x1000 }

def jalPair : JitCall where
  cacheGet pc := if pc = 0x1000 then some jalThere else if pc = 0x2000 then some jalBack else none
  code b _
    | .storePc => [[0xb9], JitState.word4 (b.tail.taken.getD 0), [0x89], [0x8f], [0x84, 0, 0, 0]]
    | _ => []

/-- `slti x1, x2, 1` in every word of the page at 0x1000. -/
def sltiPage : JitBlock where
  pcStart := 0x1000
  pcEnd := 0x2000
  irs := (List.range 1024).map fun i =>
    { opcode := .slti, rd := 1, rs1 := 2, imm := 1, pc := .ofNat 32 (0x1000 + 4 * i) }
  pageTerminated := true
  tail := { taken := some 0x2000 }

/-- `jal x0, -0x1000` behind it. -/
def sltiLoop : JitBlock where
  pcStart := 0x2000
  pcEnd := 0x2004
  irs := [{ opcode := .jal, imm := 0xfffff000, pc := 0x2000 }]
  tail := { taken := some 0x1000 }

/-- The host code with x2 in `eax` and x1 in `ebx`: the first node loads x2, the tail of the page stores x1. -/
def sltiCall : JitCall where
  cacheGet pc := if pc = 0x1000 then some sltiPage else if pc = 0x2000 then some sltiLoop else none
  code b i
    | .body =>
      if !b.pageTerminated then []
      else if i = b.irs.length then [[0x89], [0x5f], [0x08]]
      else (if i = 0 then [[0x8b], [0x47], [0x0c]] else []) ++
        [[0x81], [0xf8], JitState.word4 1, [0xbb], JitState.word4 1]
    | .inner => [[0xbb], JitState.word4 0]
    | .storePc =>
      [[0xb9], JitState.word4 (if b.pageTerminated then b.pcEnd else 0x1000), [0x89], [0x8f], [0x84, 0, 0, 0]]
    | _ => []

theorem sltiPage_slti : sltiPage.irs.length = 1024 ∧ ∀ ir ∈ sltiPage.irs, ir.opcode = .slti := by
  simp only [sltiPage, List.length_map, List.length_range, List.mem_map, true_and]
  rintro ir ⟨i, -, rfl⟩
  rfl

/-- Every node has a record, and the tail of the page two. -/
theorem sltiPage_ops : ∃ ops, sltiCall.blockOps sltiPage = .ok ops ∧ records ops = 1026 ∧
    (encode ops).length ≤ 26000 := by
  obtain ⟨hlen, hslti⟩ := sltiPage_slti
  have hnode : ∀ j, ∀ ir ∈ sltiPage.irs, ∃ ops,
      dispatch sltiCall.bld sltiCall.csrSatp (sltiCall.code sltiPage j) (JitCall.linksAt sltiPage j) ir = .ok ops ∧
      records ops = 1 ∧ (encode ops).length ≤ 25 := by
    intro j ir hir
    have hbody : (sltiCall.code sltiPage j .body).flatten.length ≤ 14 := by
      simp only [sltiCall]
      split_ifs <;> decide
    have hinner : (sltiCall.code sltiPage j .inner).flatten.length = 5 := rfl
    refine ⟨genSlt (sltiCall.code sltiPage j) .jl, ?_, ?_, ?_⟩
    · unfold dispatch
      rw [hslti ir hir]
      rfl
    · simp [genSlt, Emit.records]
    · unfold genSlt
      rw [encode_append, encode_append, encode_cons, encode_straight, encode_straight, List.length_append,
        List.length_append, List.length_append, encode_jcc_cond, hinner]
      simp only [encode_cons, encode_nil, Emit.encode, List.append_nil, List.length_nil]
      omega
  have htail : records (sltiCall.pageTail sltiPage) = 2 ∧ (encode (sltiCall.pageTail sltiPage)).length ≤ 400 := by
    have hbody : sltiCall.code sltiPage sltiPage.irs.length .body = [[0x89], [0x5f], [0x08]] := by
      unfold sltiCall
      simp only [show sltiPage.pageTerminated = true from rfl, Bool.not_true, Bool.false_eq_true, if_false, if_true]
    unfold JitCall.pageTail
    simp only [hbody]
    decide
  obtain ⟨ops, hops, hrecords, hbytes⟩ := JitCall.nodeOps_each (i := 0) hnode
  refine ⟨ops ++ sltiCall.pageTail sltiPage, ?_, ?_, ?_⟩
  · unfold JitCall.blockOps
    rw [hops]
    rfl
  · rw [records_append, hrecords, hlen, htail.1]
  · rw [encode_append, List.length_append]
    omega

theorem sltiPage_reaches {x : JitBlock} (h : sltiCall.Reaches sltiPage x) : x = sltiPage ∨ x = sltiLoop := by
  cases h with
  | root => exact .inl rfl
  | link _ _ hget =>
    simp only [sltiCall] at hget
    split_ifs at hget
    · exact .inl (Option.some.inj hget).symm
    · exact .inr (Option.some.inj hget).symm

theorem sltiPage_linked : sltiCall.Linked sltiPage where
  ops x hx := by
    rcases sltiPage_reaches hx with rfl | rfl
    · obtain ⟨ops, hops, -⟩ := sltiPage_ops
      exact ⟨ops, hops⟩
    · exact ⟨_, rfl⟩
  untaken x pc hx hpc := by
    rcases sltiPage_reaches hx with rfl | rfl <;> cases hpc
  taken x pc hx hpc := by
    rcases sltiPage_reaches hx with rfl | rfl <;> cases hpc
    · exact ⟨sltiLoop, rfl⟩
    · exact ⟨sltiPage, rfl⟩

end Rv32emu
