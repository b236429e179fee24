import Rv32emu.JitJumps

/-!
# The tables of one call of `jit_translate`

* `Grew` : what emitting a list of calls does to the sizes, when nothing is flushed;
* `Walk` : the depth-first walk of `translate_chained_block` over the links, without the code buffer;
* `Fits` : the walk ends and what it visits fits in the tables; `jitPass_fits_iff`;
* `Spacious` : the set and the jump records have room for every block that is linked, so no assertion fails.
-/

namespace Rv32emu

open JitState

/-! ## Sizes -/

def Emit.records : Emit → Nat
  | .bytes _ | .jcc _ _ => 0
  | .target _ | .jmp _ _ | .exit => 1

def Emit.silent : Emit → Bool
  | .target _ => true
  | _ => false

/-- The number of jump records of a list of calls. -/
def records (ops : List Emit) : Nat := (ops.map Emit.records).sum

@[simp] theorem records_nil : records [] = 0 := rfl

@[simp] theorem records_cons (op : Emit) (ops : List Emit) : records (op :: ops) = op.records + records ops := rfl

@[simp] theorem records_append (ops ops' : List Emit) : records (ops ++ ops') = records ops + records ops' := by
  simp [records]

@[simp] theorem encode_append (ops ops' : List Emit) : encode (ops ++ ops') = encode ops ++ encode ops' := by
  simp [encode]

@[simp] theorem records_straight (code : List (List Byte)) : records (straight code) = 0 := by
  induction code with
  | nil => rfl
  | cons d code ih => exact (Nat.zero_add _).trans ih

@[simp] theorem encode_straight (code : List (List Byte)) : encode (straight code) = code.flatten := by
  induction code with
  | nil => rfl
  | cons d code ih => exact congrArg (d ++ ·) ih

theorem layout_length (o : Nat) (l : Locs) (ops : List Emit) : (layout o l ops).length = records ops := by
  induction ops generalizing o l with
  | nil => rfl
  | cons op ops ih =>
    rw [records_cons]
    cases op with
    | bytes data => exact (ih _ _).trans (Nat.zero_add _).symm
    | jcc v code => exact (ih _ _).trans (Nat.zero_add _).symm
    | target v | jmp pc satp | exit =>
      rw [layout, List.length_cons, ih]
      exact Nat.add_comm _ _

/-- From `s` to `s'` the calls `ops` have been made, and nothing has been flushed. -/
structure Grew (s s' : JitState) (ops : List Emit) : Prop where
  flush : s.shouldFlush = false
  flush' : s'.shouldFlush = false
  offset : s'.offset = s.offset + (encode ops).length
  size : s.offset ≤ codeCacheSize → s'.offset ≤ codeCacheSize
  jumps : s'.jumps.length = s.jumps.length + records ops
  cap : s.jumps.length ≤ maxJumps → s'.jumps.length ≤ maxJumps
  set : s'.set = s.set
  offsetMap : s'.offsetMap = s.offsetMap
  full : s.offsetMap.length = maxBlocks → ∀ op ∈ ops, op.silent = true

theorem Grew.refl {s : JitState} (h : s.shouldFlush = false) : Grew s s [] :=
  ⟨h, h, rfl, id, rfl, id, rfl, rfl, fun _ _ hop => absurd hop List.not_mem_nil⟩

theorem Grew.trans {s s' s'' : JitState} {ops ops' : List Emit} (h : Grew s s' ops) (h' : Grew s' s'' ops') :
    Grew s s'' (ops ++ ops') where
  flush := h.flush
  flush' := h'.flush'
  offset := by rw [h'.offset, h.offset, encode_append, List.length_append, Nat.add_assoc]
  size := fun hs => h'.size (h.size hs)
  jumps := by rw [h'.jumps, h.jumps, records_append, Nat.add_assoc]
  cap := fun hs => h'.cap (h.cap hs)
  set := h'.set.trans h.set
  offsetMap := h'.offsetMap.trans h.offsetMap
  full := by
    intro hn op hop
    rcases List.mem_append.mp hop with hop | hop
    · exact h.full hn op hop
    · exact h'.full (by rw [h.offsetMap, hn]) op hop

theorem emitBytes_full {s : JitState} {data : List Byte} (hn : s.offsetMap.length = maxBlocks) :
    (s.emitBytes data).shouldFlush = true := by
  unfold emitBytes
  split_ifs <;> rfl

/-- A call that succeeds leaves at most `MAX_JUMPS` records, and flushes if the offset map is full. -/
theorem Emit.run_ok {op : Emit} {s s' : JitState} {l l' : Locs} (h : op.run (s, l) = .ok (s', l')) :
    (s.jumps.length ≤ maxJumps → s'.jumps.length ≤ maxJumps) ∧
      (s.offsetMap.length = maxBlocks → s'.shouldFlush = false → op.silent = true) := by
  have hbytes : ∀ (t : JitState) (data : List Byte), (t.emitBytes data).jumps = t.jumps ∧
      (t.emitBytes data).offsetMap = t.offsetMap := by
    intro t data
    unfold emitBytes
    split_ifs <;> exact ⟨rfl, rfl⟩
  have haddr : ∀ {t t' : JitState} {pc satp : Word} {for_ : Nat → JumpFor},
      t.emitJumpTargetAddress pc satp for_ = .ok t' → t'.jumps.length ≤ maxJumps ∧
        (t.offsetMap.length = maxBlocks → t'.shouldFlush = true) := by
    intro t t' pc satp for_ ht
    unfold emitJumpTargetAddress at ht
    split_ifs at ht with hlt
    cases ht
    refine ⟨?_, fun hn => emitBytes_full hn⟩
    rw [(hbytes _ _).1, List.length_append]
    exact hlt
  cases op with
  | bytes data =>
    cases h
    rw [(hbytes s data).1]
    refine ⟨id, fun hn hnf => ?_⟩
    rw [emitBytes_full hn] at hnf
    cases hnf
  | jcc v code =>
    cases h
    unfold emitJccOffset
    constructor
    · intro hj
      rw [(hbytes _ _).1]
      split_ifs <;> simpa only [(hbytes _ _).1] using hj
    · intro hn hnf
      rw [emitBytes_full] at hnf
      · cases hnf
      · split_ifs <;> simpa only [(hbytes _ _).2] using hn
  | target v =>
    obtain ⟨t, ht, heq⟩ := map_ok h
    cases heq
    unfold emitJumpTargetOffset at ht
    split_ifs at ht with hlt
    cases ht
    refine ⟨fun _ => ?_, fun _ _ => rfl⟩
    rw [List.length_append]
    exact hlt
  | jmp pc satp =>
    obtain ⟨t, ht, heq⟩ := map_ok h
    cases heq
    obtain ⟨hj, hf⟩ := haddr ht
    refine ⟨fun _ => hj, fun hn hnf => ?_⟩
    rw [hf (by rw [(hbytes _ _).2, hn])] at hnf
    cases hnf
  | exit =>
    obtain ⟨t, ht, heq⟩ := map_ok h
    cases heq
    obtain ⟨hj, hf⟩ := haddr ht
    refine ⟨fun _ => hj, fun hn hnf => ?_⟩
    rw [hf (by rw [(hbytes _ _).2, hn])] at hnf
    cases hnf

theorem emitFrom_ok {ops : List Emit} {s s' : JitState} {l : Locs} (h : emitFrom ops (s, l) = .ok s') :
    (s.jumps.length ≤ maxJumps → s'.jumps.length ≤ maxJumps) ∧
      (s.offsetMap.length = maxBlocks → s'.shouldFlush = false → ∀ op ∈ ops, op.silent = true) := by
  induction ops generalizing s l with
  | nil =>
    cases h
    exact ⟨id, fun _ _ _ hop => absurd hop List.not_mem_nil⟩
  | cons op ops ih =>
    obtain ⟨⟨t, l'⟩, hop, hrest⟩ := bind_ok h
    obtain ⟨hcap, hfull⟩ := Emit.run_ok hop
    obtain ⟨hcap', hfull'⟩ := ih hrest
    refine ⟨fun hj => hcap' (hcap hj), fun hn hnf op' hmem => ?_⟩
    have hran := emitFrom_ran hrest hnf
    have hone : emitFrom [op] (s, l) = .ok t := by
      unfold emitFrom
      rw [hop]
      rfl
    have hmap := (emitFrom_ran hone hran.flush).offsetMap
    rcases List.mem_cons.mp hmem with rfl | hmem
    · exact hfull hn hran.flush
    · exact hfull' (by rw [hmap, hn]) hnf op' hmem

theorem emitOps_grew {ops : List Emit} {s s' : JitState} (h : emitOps ops s = .ok s')
    (hnf : s'.shouldFlush = false) : Grew s s' ops := by
  have hran := emitFrom_ran h hnf
  obtain ⟨hcap, hfull⟩ := emitFrom_ok h
  refine ⟨hran.flush, hnf, hran.offset, hran.size, ?_, hcap, hran.set, hran.offsetMap, fun hn => hfull hn hnf⟩
  rw [hran.jumps, List.length_append, List.length_map, layout_length]

/-! ## Emitting what fits -/

/-- The calls `ops` fit in the buffer and the offset map. -/
structure Room (s : JitState) (ops : List Emit) : Prop where
  flush : s.shouldFlush = false
  size : s.offset + (encode ops).length ≤ codeCacheSize
  full : s.offsetMap.length = maxBlocks → ∀ op ∈ ops, op.silent = true

/-- `emit_bytes` changes only the buffer. -/
theorem emitBytes_spec (s : JitState) (data : List Byte) :
    (s.emitBytes data).set = s.set ∧ (s.emitBytes data).offsetMap = s.offsetMap ∧
      (s.emitBytes data).jumps = s.jumps := by
  unfold emitBytes
  split_ifs <;> exact ⟨rfl, rfl, rfl⟩

theorem Emit.run_fits (op : Emit) (s : JitState) (l : Locs) (h : s.jumps.length + op.records ≤ maxJumps) :
    ∃ s' l', op.run (s, l) = .ok (s', l') ∧ s'.set = s.set ∧ s'.offsetMap = s.offsetMap ∧
      s'.jumps.length = s.jumps.length + op.records ∧
      (Room s [op] → s'.shouldFlush = false ∧ s'.offset = s.offset + op.encode.length) := by
  have hloud : op.silent = false → Room s [op] → s.offsetMap.length ≠ maxBlocks := by
    intro hs hroom hn
    have := hroom.full hn op List.mem_cons_self
    rw [hs] at this
    cases this
  have hsize : Room s [op] → s.offset + op.encode.length ≤ codeCacheSize := by
    intro hroom
    have hsz := hroom.size
    rwa [encode_cons, encode_nil, List.append_nil] at hsz
  -- a jump whose record has `pc` and `satp`
  have haddr : ∀ (pc satp : Word) (for_ : Nat → JumpFor), s.jumps.length < maxJumps → ∃ s',
      (s.emitBytes [jccJmp]).emitJumpTargetAddress pc satp for_ = .ok s' ∧ s'.set = s.set ∧
      s'.offsetMap = s.offsetMap ∧ s'.jumps.length = s.jumps.length + 1 ∧
      (s.shouldFlush = false → s.offset + 5 ≤ codeCacheSize → s.offsetMap.length ≠ maxBlocks →
        s'.shouldFlush = false ∧ s'.offset = s.offset + 5) := by
    intro pc satp for_ hlt
    obtain ⟨hset, hmap, hjumps⟩ := emitBytes_spec s [jccJmp]
    unfold emitJumpTargetAddress
    rw [if_pos (by rw [hjumps]; exact hlt)]
    refine ⟨_, rfl, ?_, ?_, ?_, fun hnf hsz hn => ?_⟩
    · rw [(emitBytes_spec _ _).1]
      exact hset
    · rw [(emitBytes_spec _ _).2.1]
      exact hmap
    · rw [(emitBytes_spec _ _).2.2, List.length_append, hjumps]
      rfl
    · have hfit1 : ¬ codeCacheSize < s.offset + 1 := by omega
      have hfit2 : ¬ codeCacheSize < s.offset + 1 + 4 := by omega
      simp [emitBytes, hfit1, hfit2, hn, hnf]
  cases op with
  | bytes data =>
    obtain ⟨hset, hmap, hjumps⟩ := emitBytes_spec s data
    refine ⟨_, _, rfl, hset, hmap, by rw [hjumps]; rfl, fun hroom => ?_⟩
    have hfit : ¬ codeCacheSize < s.offset + data.length := Nat.not_lt.mpr (hsize hroom)
    simp [emitBytes, hfit, hloud rfl hroom, hroom.flush, Emit.encode]
  | jcc v code =>
    refine ⟨_, _, rfl, ?_, ?_, ?_, fun hroom => ?_⟩
    · unfold emitJccOffset
      split_ifs <;> simp only [(emitBytes_spec _ _).1]
    · unfold emitJccOffset
      split_ifs <;> simp only [(emitBytes_spec _ _).2.1]
    · unfold emitJccOffset
      split_ifs <;> simp only [(emitBytes_spec _ _).2.2] <;> rfl
    · have hn := hloud rfl hroom
      have hsz := hsize hroom
      have hnf := hroom.flush
      by_cases hc : code = jccJmp
      · simp only [Emit.encode, hc, if_true, List.length_append, word4_length] at hsz ⊢
        have hfit1 : ¬ codeCacheSize < s.offset + 1 := by simp at hsz; omega
        have hfit2 : ¬ codeCacheSize < s.offset + 1 + 4 := by simp at hsz; omega
        simp [emitJccOffset, emitBytes, hfit1, hfit2, hn, hnf]
      · simp only [Emit.encode, hc, if_false, List.length_append, word4_length] at hsz ⊢
        have hfit1 : ¬ codeCacheSize < s.offset + 1 := by simp at hsz; omega
        have hfit2 : ¬ codeCacheSize < s.offset + 1 + 1 := by simp at hsz; omega
        have hfit3 : ¬ codeCacheSize < s.offset + 1 + 1 + 4 := by simp at hsz; omega
        simp [emitJccOffset, emitBytes, hc, hfit1, hfit2, hfit3, hn, hnf]
  | target v =>
    have hlt : s.jumps.length < maxJumps := h
    refine ⟨{ s with
      jumps := s.jumps ++ [{ offsetLoc := l v + v.skip, targetOffset := s.offset }]
      made := s.made ++ [.inner (l v + v.skip) s.offset] }, l, ?_, rfl, rfl, ?_, fun hr => ⟨hr.flush, rfl⟩⟩
    · simp only [Emit.run, emitJumpTargetOffset, if_pos hlt]
      rfl
    · rw [List.length_append]
      rfl
  | jmp pc satp =>
    obtain ⟨s', hs, hset, hmap, hjumps, hroom⟩ := haddr pc satp (fun loc => .guest loc pc satp) h
    refine ⟨s', l, ?_, hset, hmap, hjumps, fun hr => hroom hr.flush (hsize hr) (hloud rfl hr)⟩
    simp only [Emit.run, emitJmp, hs]
    rfl
  | exit =>
    obtain ⟨s', hs, hset, hmap, hjumps, hroom⟩ := haddr targetPcExit 0 .exit h
    refine ⟨s', l, ?_, hset, hmap, hjumps, fun hr => hroom hr.flush (hsize hr) (hloud rfl hr)⟩
    simp only [Emit.run, emitExit, hs]
    rfl

theorem Room.left {s : JitState} {ops ops' : List Emit} (h : Room s (ops ++ ops')) : Room s ops where
  flush := h.flush
  size := by
    have := h.size
    rw [encode_append, List.length_append] at this
    omega
  full := fun hn op hop => h.full hn op (List.mem_append_left _ hop)

theorem Room.right {s t : JitState} {ops ops' : List Emit} (h : Room s (ops ++ ops')) (hnf : t.shouldFlush = false)
    (hoff : t.offset = s.offset + (encode ops).length) (hmap : t.offsetMap = s.offsetMap) : Room t ops' where
  flush := hnf
  size := by
    have := h.size
    rw [encode_append, List.length_append] at this
    omega
  full := by
    rw [hmap]
    exact fun hn op hop => h.full hn op (List.mem_append_right _ hop)

/-- Calls whose records fit succeed; nothing is flushed where there is room. -/
theorem emitFrom_fits (ops : List Emit) (s : JitState) (l : Locs) (h : s.jumps.length + records ops ≤ maxJumps) :
    ∃ s', emitFrom ops (s, l) = .ok s' ∧ s'.set = s.set ∧ s'.offsetMap = s.offsetMap ∧
      s'.jumps.length = s.jumps.length + records ops ∧ (Room s ops → s'.shouldFlush = false) := by
  induction ops generalizing s l with
  | nil => exact ⟨s, rfl, rfl, rfl, rfl, Room.flush⟩
  | cons op ops ih =>
    rw [records_cons] at h
    obtain ⟨t, l', hrun, hset, hmap, hjumps, hroom⟩ := op.run_fits s l (by omega)
    obtain ⟨s', hs, hset', hmap', hjumps', hroom'⟩ := ih t l' (by omega)
    refine ⟨s', ?_, hset'.trans hset, hmap'.trans hmap, by rw [records_cons]; omega, fun hr => ?_⟩
    · unfold emitFrom
      rw [hrun]
      exact hs
    · have hr : Room s ([op] ++ ops) := hr
      obtain ⟨hnf, hoff⟩ := hroom hr.left
      refine hroom' (hr.right hnf ?_ hmap)
      rw [hoff, encode_cons, encode_nil, List.append_nil]

/-! ## Blocks -/

namespace JitCall

variable {c : JitCall}

def nodeOps (c : JitCall) (b : JitBlock) : Nat → List Insn → Except JitFault (List Emit)
  | _, [] => .ok []
  | i, ir :: irs => do
    let ops ← dispatch c.bld c.csrSatp (c.code b i) (linksAt b i) ir
    let rest ← c.nodeOps b (i + 1) irs
    .ok (ops ++ rest)

def blockOps (c : JitCall) (b : JitBlock) : Except JitFault (List Emit) := do
  let ops ← c.nodeOps b 0 b.irs
  .ok (ops ++ if b.pageTerminated then c.pageTail b else [])

theorem translateLoop_grew {b : JitBlock} {i : Nat} {irs : List Insn} {s s' : JitState}
    (h : c.translateLoop b i irs s = .ok s') (hnf : s'.shouldFlush = false) :
    ∃ ops, c.nodeOps b i irs = .ok ops ∧ Grew s s' ops := by
  induction irs generalizing i s with
  | nil =>
    cases h
    exact ⟨[], rfl, .refl hnf⟩
  | cons ir irs ih =>
    unfold translateLoop at h
    split_ifs at h with hf
    · cases h
      rw [hf] at hnf
      cases hnf
    · obtain ⟨ops, hops, h⟩ := bind_ok h
      obtain ⟨t, ht, h⟩ := bind_ok h
      obtain ⟨rest, hrest, hgrew⟩ := ih h
      refine ⟨ops ++ rest, ?_, (emitOps_grew ht hgrew.flush).trans hgrew⟩
      unfold nodeOps
      rw [hops, hrest]
      rfl

/-- **A block that does not flush is emitted as a whole.** -/
theorem translate_grew {b : JitBlock} {s s' : JitState} (h : c.translate b s = .ok s')
    (hnf : s'.shouldFlush = false) : ∃ ops, c.blockOps b = .ok ops ∧ Grew s s' ops := by
  obtain ⟨t, ht, h⟩ := bind_ok h
  have htail : Grew t s' (if b.pageTerminated then c.pageTail b else []) := by
    cases hp : b.pageTerminated with
    | false =>
      simp only [hp, Bool.false_and, Bool.false_eq_true, if_false] at h
      cases h
      exact .refl hnf
    | true =>
      cases hf : t.shouldFlush with
      | true =>
        simp only [hp, hf, Bool.not_true, Bool.and_false, Bool.false_eq_true, if_false] at h
        cases h
        rw [hf] at hnf
        cases hnf
      | false =>
        simp only [hp, hf, Bool.not_false, Bool.and_true, if_true] at h
        exact emitOps_grew h hnf
  obtain ⟨ops, hops, hgrew⟩ := translateLoop_grew ht htail.flush
  refine ⟨_, ?_, hgrew.trans htail⟩
  unfold blockOps
  rw [hops]
  rfl

theorem translateLoop_fits {b : JitBlock} {i : Nat} {irs : List Insn} {s : JitState} {ops : List Emit}
    (hops : c.nodeOps b i irs = .ok ops) (h : s.jumps.length + records ops ≤ maxJumps) :
    ∃ s', c.translateLoop b i irs s = .ok s' ∧ s'.set = s.set ∧ s'.offsetMap = s.offsetMap ∧
      s'.jumps.length ≤ s.jumps.length + records ops ∧ (Room s ops → s'.shouldFlush = false) := by
  induction irs generalizing i s ops with
  | nil => exact ⟨s, rfl, rfl, rfl, Nat.le_add_right _ _, Room.flush⟩
  | cons ir irs ih =>
    obtain ⟨head, hhead, hops⟩ := bind_ok hops
    obtain ⟨rest, hrest, hops⟩ := bind_ok hops
    cases hops
    rw [records_append] at h ⊢
    unfold translateLoop
    cases hf : s.shouldFlush with
    | true => exact ⟨s, rfl, rfl, rfl, by omega, fun hr => hr.flush⟩
    | false =>
      obtain ⟨t, ht, hset, hmap, hjumps, hroom⟩ := emitFrom_fits head s (fun _ => 0) (by omega)
      obtain ⟨s', hs, hset', hmap', hjumps', hroom'⟩ := ih (s := t) hrest (by omega)
      refine ⟨s', ?_, hset'.trans hset, hmap'.trans hmap, by omega, fun hr => ?_⟩
      · rw [if_neg Bool.false_ne_true, hhead]
        simp only [bind, Except.bind, emitOps, ht]
        exact hs
      · have hgrew := emitOps_grew ht (hroom hr.left)
        exact hroom' (hr.right hgrew.flush' hgrew.offset hmap)

/-- **A block whose records fit is translated**, and nothing is flushed where there is room for it. -/
theorem translate_fits {b : JitBlock} {s : JitState} {ops : List Emit} (hops : c.blockOps b = .ok ops)
    (h : s.jumps.length + records ops ≤ maxJumps) :
    ∃ s', c.translate b s = .ok s' ∧ s'.set = s.set ∧ s'.offsetMap = s.offsetMap ∧
      s'.jumps.length ≤ s.jumps.length + records ops ∧ (Room s ops → s'.shouldFlush = false) := by
  obtain ⟨nodes, hnodes, hops⟩ := bind_ok hops
  cases hops
  rw [records_append] at h ⊢
  obtain ⟨t, ht, hset, hmap, hjumps, hroom⟩ := translateLoop_fits (s := s) hnodes (by omega)
  unfold translate
  rw [ht]
  cases hp : b.pageTerminated && !t.shouldFlush with
  | false =>
    refine ⟨t, by simp only [bind, Except.bind, hp]; rfl, hset, hmap, by omega, fun hr => hroom hr.left⟩
  | true =>
    obtain ⟨hpage, -⟩ := Bool.and_eq_true_iff.mp hp
    rw [if_pos hpage] at h ⊢
    obtain ⟨s', hs, hset', hmap', hjumps', hroom'⟩ := emitFrom_fits (c.pageTail b) t (fun _ => 0) (by omega)
    refine ⟨s', by simp only [bind, Except.bind, hp, if_true]; exact hs, hset'.trans hset, hmap'.trans hmap,
      by omega, fun hr => ?_⟩
    obtain ⟨ops', hops', hgrew⟩ := translateLoop_grew ht (hroom hr.left)
    rw [hnodes] at hops'
    cases hops'
    exact hroom' (hr.right hgrew.flush' hgrew.offset hmap)

/-! ## The walk over the links -/

/-- The set and `n_blocks`. -/
structure Table where
  set : CodeSet
  n : Nat

end JitCall

def JitState.table (s : JitState) : JitCall.Table := ⟨s.set, s.offsetMap.length⟩

namespace JitCall

variable {c : JitCall}

/-- What is left to do: visit a block, or follow a link of a block. -/
inductive Task
  | visit (b : JitBlock)
  | link (must : Bool) (pc : Option Word)

/-- The depth-first walk of `translate_chained_block`: `Walk t task L t'` if `task` visits the blocks `L`
and takes the tables from `t` to `t'`. The last block that the offset map has room for has no code. -/
inductive Walk (c : JitCall) : Table → Task → List JitBlock → Table → Prop
  | old {t : Table} {b : JitBlock} (hhas : setHas c.bld t.set (rvHashKey c.bld b.satp b.pcStart) = .ok true) :
      Walk c t (.visit b) [] t
  | full {t : Table} {b : JitBlock} (hhas : setHas c.bld t.set (rvHashKey c.bld b.satp b.pcStart) = .ok false)
      (hn : t.n = maxBlocks) : Walk c t (.visit b) [] t
  | new {t t₁ t₂ t₃ : Table} {b : JitBlock} {set : CodeSet} {ops : List Emit} {L₁ L₂ L₃ : List JitBlock}
      (hhas : setHas c.bld t.set (rvHashKey c.bld b.satp b.pcStart) = .ok false)
      (hadd : setAdd c.bld t.set (rvHashKey c.bld b.satp b.pcStart) = .ok (set, true))
      (hn : t.n < maxBlocks) (hops : c.blockOps b = .ok ops)
      (hlast : t.n + 1 = maxBlocks → ∀ op ∈ ops, op.silent = true)
      (h₁ : Walk c ⟨set, t.n + 1⟩ (.link true b.tail.untaken) L₁ t₁)
      (h₂ : Walk c t₁ (.link true b.tail.taken) L₂ t₂)
      (h₃ : Walk c t₂ (.link false (c.historyTarget b)) L₃ t₃) :
      Walk c t (.visit b) (b :: (L₁ ++ L₂ ++ L₃)) t₃
  | none {t : Table} {must : Bool} : Walk c t (.link must none) [] t
  | known {t : Table} {must : Bool} {pc : Word} (hhas : setHas c.bld t.set (pc.setWidth 64) = .ok true) :
      Walk c t (.link must (some pc)) [] t
  | missing {t : Table} {pc : Word} (hhas : setHas c.bld t.set (pc.setWidth 64) = .ok false)
      (hget : c.cacheGet pc = Option.none) : Walk c t (.link false (some pc)) [] t
  | skipped {t : Table} {must : Bool} {pc : Word} {b : JitBlock}
      (hhas : setHas c.bld t.set (pc.setWidth 64) = .ok false) (hget : c.cacheGet pc = some b)
      (hf : c.follows b = false) : Walk c t (.link must (some pc)) [] t
  | followed {t t' : Table} {must : Bool} {pc : Word} {b : JitBlock} {L : List JitBlock}
      (hhas : setHas c.bld t.set (pc.setWidth 64) = .ok false) (hget : c.cacheGet pc = some b)
      (hf : c.follows b = true) (h : Walk c t (.visit b) L t') : Walk c t (.link must (some pc)) L t'

/-- The calls for a block that is translated. -/
def blockCode (c : JitCall) (b : JitBlock) : List Emit := (c.blockOps b).toOption.getD []

theorem blockCode_eq {b : JitBlock} {ops : List Emit} (h : c.blockOps b = .ok ops) : c.blockCode b = ops := by
  unfold blockCode
  rw [h]
  rfl

def codeBytes (c : JitCall) (L : List JitBlock) : Nat := (L.map fun b => (encode (c.blockCode b)).length).sum

/-- The jump records of the blocks `L`. -/
def codeJumps (c : JitCall) (L : List JitBlock) : Nat := (L.map fun b => records (c.blockCode b)).sum

@[simp] theorem codeBytes_nil : c.codeBytes [] = 0 := rfl

@[simp] theorem codeJumps_nil : c.codeJumps [] = 0 := rfl

@[simp] theorem codeBytes_cons (b : JitBlock) (L : List JitBlock) :
    c.codeBytes (b :: L) = (encode (c.blockCode b)).length + c.codeBytes L := rfl

@[simp] theorem codeJumps_cons (b : JitBlock) (L : List JitBlock) :
    c.codeJumps (b :: L) = records (c.blockCode b) + c.codeJumps L := rfl

@[simp] theorem codeBytes_append (L L' : List JitBlock) :
    c.codeBytes (L ++ L') = c.codeBytes L + c.codeBytes L' := by
  simp [codeBytes]

@[simp] theorem codeJumps_append (L L' : List JitBlock) :
    c.codeJumps (L ++ L') = c.codeJumps L + c.codeJumps L' := by
  simp [codeJumps]

/-- The walk for `task` from `s` to `s'`, with the sizes. -/
structure Walked (c : JitCall) (s s' : JitState) (task : Task) (L : List JitBlock) : Prop where
  walk : Walk c s.table task L s'.table
  flush : s.shouldFlush = false
  offset : s'.offset = s.offset + c.codeBytes L
  size : s.offset ≤ codeCacheSize → s'.offset ≤ codeCacheSize
  jumps : s'.jumps.length = s.jumps.length + c.codeJumps L
  cap : s.jumps.length ≤ maxJumps → s'.jumps.length ≤ maxJumps

theorem Walked.nil {s : JitState} {task : Task} (hnf : s.shouldFlush = false) (h : Walk c s.table task [] s.table) :
    Walked c s s task [] :=
  ⟨h, hnf, rfl, id, rfl, id⟩

theorem followLink_walked {rec : JitBlock → JitState → Except JitFault JitState}
    (hrec : ∀ {b s s'}, rec b s = .ok s' → s'.shouldFlush = false → ∃ L, Walked c s s' (.visit b) L)
    {must : Bool} {link : Option Word} {s s' : JitState} (h : c.followLink rec must link s = .ok s')
    (hnf : s'.shouldFlush = false) : ∃ L, Walked c s s' (.link must link) L := by
  cases followLink_ok h with
  | none heq =>
    subst heq
    exact ⟨[], .nil hnf .none⟩
  | old hhas heq =>
    subst heq
    exact ⟨[], .nil hnf (.known hhas)⟩
  | missing hhas hget hmust heq =>
    subst heq hmust
    exact ⟨[], .nil hnf (.missing hhas hget)⟩
  | skipped hhas hget hf heq =>
    subst heq
    exact ⟨[], .nil hnf (.skipped hhas hget hf)⟩
  | followed hhas hget hf hb =>
    obtain ⟨L, hw⟩ := hrec hb hnf
    exact ⟨L, .followed hhas hget hf hw.walk, hw.flush, hw.offset, hw.size, hw.jumps, hw.cap⟩

/-- **A call that does not flush is a walk.** -/
theorem translateChainedBlock_walked {n : Nat} {b : JitBlock} {s s' : JitState}
    (h : c.translateChainedBlock n b s = .ok s') (hnf : s'.shouldFlush = false) :
    ∃ L, Walked c s s' (.visit b) L := by
  induction n generalizing b s s' with
  | zero => cases h
  | succ n ih =>
    cases translateChainedBlock_ok h with
    | old hhas heq =>
      subst heq
      exact ⟨[], .nil hnf (.old hhas)⟩
    | full hhas hn heq =>
      subst heq
      exact ⟨[], .nil hnf (.full hhas hn)⟩
    | @new set s₁ s₂ hhas hadd hn hins htr hend =>
      rcases hend with ⟨hf, rfl⟩ | ⟨-, s₃, s₄, h₃, h₄, h₅⟩
      · rw [hf] at hnf
        cases hnf
      · obtain ⟨L₃, w₃⟩ := followLink_walked ih h₅ hnf
        obtain ⟨L₂, w₂⟩ := followLink_walked ih h₄ w₃.flush
        obtain ⟨L₁, w₁⟩ := followLink_walked ih h₃ w₂.flush
        obtain ⟨ops, hops, hg⟩ := translate_grew htr w₁.flush
        have htable : s₂.table = ⟨set, s.table.n + 1⟩ := by
          unfold JitState.table
          rw [hg.set, hg.offsetMap, hins, List.length_append]
          rfl
        have hlast : s.table.n + 1 = maxBlocks → ∀ op ∈ ops, op.silent = true := by
          intro hmax
          refine hg.full ?_
          rw [hins, List.length_append]
          exact hmax
        have hoff := hg.offset
        have hjumps := hg.jumps
        have hsize := hg.size
        have hcap := hg.cap
        have hflush := hg.flush
        subst hins
        refine ⟨b :: (L₁ ++ L₂ ++ L₃),
          .new hhas hadd hn hops hlast (htable ▸ w₁.walk) w₂.walk w₃.walk, hflush, ?_, ?_, ?_, ?_⟩
        · rw [w₃.offset, w₂.offset, w₁.offset, hoff, codeBytes_cons, codeBytes_append, codeBytes_append,
            blockCode_eq hops]
          simp only
          omega
        · exact fun hs => w₃.size (w₂.size (w₁.size (hsize hs)))
        · rw [w₃.jumps, w₂.jumps, w₁.jumps, hjumps, codeJumps_cons, codeJumps_append, codeJumps_append,
            blockCode_eq hops]
          simp only
          omega
        · exact fun hs => w₃.cap (w₂.cap (w₁.cap (hcap hs)))

theorem Followed.run {rec : JitBlock → JitState → Except JitFault JitState} {must : Bool} {link : Option Word}
    {s s' : JitState} (h : c.Followed rec must s s' link) : c.followLink rec must link s = .ok s' := by
  cases h with
  | none heq =>
    rw [heq]
    rfl
  | old hhas heq =>
    simp only [followLink, hhas, heq]
    rfl
  | missing hhas hget hmust heq =>
    simp only [followLink, hhas, hget, hmust, heq]
    rfl
  | skipped hhas hget hf heq =>
    simp only [followLink, hhas, hget, hf, heq]
    rfl
  | followed hhas hget hf hb =>
    simp only [followLink, hhas, hget, hf]
    exact hb

theorem Chained.run {n : Nat} {b : JitBlock} {s s' : JitState}
    (h : c.Chained (c.translateChainedBlock n) b s s') : c.translateChainedBlock (n + 1) b s = .ok s' := by
  cases h with
  | old hhas heq =>
    simp only [translateChainedBlock, hhas, heq]
    rfl
  | full hhas hn heq =>
    simp only [translateChainedBlock, hhas, hn, heq]
    rfl
  | new hhas hadd hn hins htr hend =>
    have hne : s.offsetMap.length ≠ maxBlocks := by omega
    subst hins
    simp only [translateChainedBlock, hhas, hadd, offsetMapInsert, bind, Except.bind, Bool.false_eq_true, if_false,
      if_neg hne, if_pos hn, Bool.not_true, htr]
    rcases hend with ⟨hf, rfl⟩ | ⟨hf, s₃, s₄, h₃, h₄, h₅⟩
    · rw [if_pos hf]
    · rw [if_neg (by rw [hf]; exact Bool.false_ne_true), h₃]
      simp only [h₄]
      exact h₅

/-- What a task does with the fuel `f`. -/
def runTask (c : JitCall) (f : Nat) : Task → JitState → Except JitFault JitState
  | .visit b => c.translateChainedBlock f b
  | .link must pc => c.followLink (c.translateChainedBlock f) must pc

theorem Walk.le {t t' : Table} {task : Task} {L : List JitBlock} (h : Walk c t task L t') (ht : t.n ≤ maxBlocks) :
    t.n ≤ t'.n ∧ t'.n ≤ maxBlocks := by
  induction h with
  | old | full | none | known | missing | skipped => exact ⟨Nat.le_refl _, ht⟩
  | new _ _ hn _ _ _ _ _ ih₁ ih₂ ih₃ =>
    have h₁ := ih₁ hn
    have h₂ := ih₂ h₁.2
    have h₃ := ih₃ h₂.2
    simp only at h₁
    exact ⟨by omega, h₃.2⟩
  | followed _ _ _ _ ih => exact ih ht

/-- **A walk whose blocks fit is made, and nothing is flushed.** -/
theorem Walk.run {t t' : Table} {task : Task} {L : List JitBlock} (h : Walk c t task L t') {s : JitState} {f : Nat}
    (ht : s.table = t) (hnf : s.shouldFlush = false) (hsize : s.offset + c.codeBytes L ≤ codeCacheSize)
    (hcap : s.jumps.length + c.codeJumps L ≤ maxJumps) (hn : t.n ≤ maxBlocks) (hf : maxBlocks < f + t.n) :
    ∃ s', c.runTask f task s = .ok s' ∧ s'.table = t' ∧ s'.shouldFlush = false ∧
      s'.offset = s.offset + c.codeBytes L ∧ s'.jumps.length = s.jumps.length + c.codeJumps L := by
  induction h generalizing s f with
  | old hhas =>
    subst ht
    obtain ⟨f, rfl⟩ := Nat.exists_eq_succ_of_ne_zero (show f ≠ 0 by omega)
    exact ⟨s, Chained.run (.old hhas rfl), rfl, hnf, rfl, rfl⟩
  | full hhas hfull =>
    subst ht
    obtain ⟨f, rfl⟩ := Nat.exists_eq_succ_of_ne_zero (show f ≠ 0 by omega)
    exact ⟨s, Chained.run (.full hhas hfull rfl), rfl, hnf, rfl, rfl⟩
  | none => exact ⟨s, rfl, ht, hnf, rfl, rfl⟩
  | known hhas =>
    subst ht
    exact ⟨s, Followed.run (.old hhas rfl), rfl, hnf, rfl, rfl⟩
  | missing hhas hget =>
    subst ht
    exact ⟨s, Followed.run (.missing hhas hget rfl rfl), rfl, hnf, rfl, rfl⟩
  | skipped hhas hget hskip =>
    subst ht
    exact ⟨s, Followed.run (.skipped hhas hget hskip rfl), rfl, hnf, rfl, rfl⟩
  | followed hhas hget hfol _ ih =>
    obtain ⟨s', hs, hrest⟩ := ih ht hnf hsize hcap hn hf
    subst ht
    exact ⟨s', Followed.run (.followed hhas hget hfol hs), hrest⟩
  | @new t t₁ t₂ t₃ b set ops L₁ L₂ L₃ hhas hadd hlt hops hlast h₁ h₂ h₃ ih₁ ih₂ ih₃ =>
    subst ht
    obtain ⟨f, rfl⟩ := Nat.exists_eq_succ_of_ne_zero (show f ≠ 0 by omega)
    rw [codeBytes_cons, codeBytes_append, codeBytes_append, blockCode_eq hops] at hsize
    rw [codeJumps_cons, codeJumps_append, codeJumps_append, blockCode_eq hops] at hcap
    -- the block itself
    let s₁ : JitState := { s with set, offsetMap := s.offsetMap ++ [⟨b.pcStart, s.offset, b.satp⟩] }
    obtain ⟨s₂, htr, -, -, -, hroom⟩ := translate_fits (s := s₁) hops (by simp only [s₁]; omega)
    have hnf₂ : s₂.shouldFlush = false := by
      refine hroom ⟨hnf, by simp only [s₁]; omega, fun hfull => hlast ?_⟩
      simpa [s₁, JitState.table] using hfull
    obtain ⟨ops', hops', hg⟩ := translate_grew htr hnf₂
    rw [hops] at hops'
    cases hops'
    have hoff : s₂.offset = s.offset + (encode ops).length := hg.offset
    have hjumps : s₂.jumps.length = s.jumps.length + records ops := hg.jumps
    have htable : s₂.table = ⟨set, s.table.n + 1⟩ := by
      unfold JitState.table
      rw [hg.set, hg.offsetMap]
      simp only [s₁, List.length_append]
      rfl
    -- its links
    have hle₁ := h₁.le hlt
    have hle₂ := h₂.le hle₁.2
    simp only at hle₁
    obtain ⟨s₃, hs₃, ht₃, hnf₃, hoff₃, hj₃⟩ :=
      ih₁ (f := f) htable hnf₂ (by omega) (by omega) hlt (by simp only; omega)
    obtain ⟨s₄, hs₄, ht₄, hnf₄, hoff₄, hj₄⟩ :=
      ih₂ (f := f) ht₃ hnf₃ (by omega) (by omega) hle₁.2 (by omega)
    obtain ⟨s₅, hs₅, ht₅, hnf₅, hoff₅, hj₅⟩ :=
      ih₃ (f := f) ht₄ hnf₄ (by omega) (by omega) hle₂.2 (by omega)
    refine ⟨s₅, Chained.run (.new hhas hadd hlt rfl htr (.inr ⟨hnf₂, s₃, s₄, hs₃, hs₄, hs₅⟩)), ht₅, hnf₅, ?_, ?_⟩
    · rw [codeBytes_cons, codeBytes_append, codeBytes_append, blockCode_eq hops]
      omega
    · rw [codeJumps_cons, codeJumps_append, codeJumps_append, blockCode_eq hops]
      omega

/-- The blocks that are not translated yet fit in what is left of the tables. -/
def Fits (c : JitCall) (b : JitBlock) (s : JitState) : Prop :=
  ∃ L t, Walk c s.table (.visit b) L t ∧ s.offset + c.codeBytes L ≤ codeCacheSize ∧ c.codeJumps L ≤ maxJumps

/-- **A pass ends without a flush if and only if its blocks fit.** -/
theorem jitPass_fits_iff {b : JitBlock} {s : JitState} (hnf : s.shouldFlush = false)
    (hsize : s.offset ≤ codeCacheSize) (hn : s.offsetMap.length ≤ maxBlocks) :
    (∃ s', c.jitPass b s = .ok s' ∧ s'.shouldFlush = false) ↔ c.Fits b s := by
  constructor
  · rintro ⟨s', hpass, hnf'⟩
    obtain ⟨L, hw⟩ := translateChainedBlock_walked hpass hnf'
    refine ⟨L, s'.table, hw.walk, ?_, ?_⟩
    · have hsz := hw.size hsize
      rw [hw.offset] at hsz
      exact hsz
    · have hcap := hw.cap (Nat.zero_le _)
      rw [hw.jumps] at hcap
      simpa using hcap
  · rintro ⟨L, t, hw, hbytes, hjumps⟩
    obtain ⟨s', hs, -, hnf', -⟩ := hw.run (s := { s with jumps := [], made := [] }) (f := maxBlocks + 1) rfl hnf
      hbytes (by simpa using hjumps) hn (by omega)
    exact ⟨s', hs, hnf'⟩

/-! ## Room for every linked block -/

def key (c : JitCall) (b : JitBlock) : BitVec 64 := rvHashKey c.bld b.satp b.pcStart

/-- The PCs that `translate_chained_block` goes to from `b`. -/
def links (c : JitCall) (b : JitBlock) : List Word :=
  b.tail.untaken.toList ++ b.tail.taken.toList ++ (c.historyTarget b).toList

/-- The blocks that can be reached from `b`. -/
inductive Reaches (c : JitCall) (b : JitBlock) : JitBlock → Prop
  | root : Reaches c b b
  | link {x y : JitBlock} {pc : Word} (hx : Reaches c b x) (hlink : pc ∈ c.links x)
      (hget : c.cacheGet pc = some y) (hf : c.follows y = true) : Reaches c b y

/-- The graph of the blocks that can be reached: they are translatable, and their links lead to blocks. -/
structure Linked (c : JitCall) (b : JitBlock) : Prop where
  ops : ∀ x, c.Reaches b x → ∃ ops, c.blockOps x = .ok ops
  untaken : ∀ x pc, c.Reaches b x → x.tail.untaken = some pc → ∃ y, c.cacheGet pc = some y
  taken : ∀ x pc, c.Reaches b x → x.tail.taken = some pc → ∃ y, c.cacheGet pc = some y

/-- The blocks of `V` in the bucket `i`. -/
def inBucket (c : JitCall) (i : Nat) (V : List JitBlock) : Nat := V.countP fun x => setHash c.bld (c.key x) = i

/-- The set finds every block that can be reached and has room for all of them, and so have the jump
records. -/
structure Spacious (c : JitCall) (b : JitBlock) (s : JitState) : Prop where
  key : ∀ x, c.Reaches b x → c.key x ≠ 0
  jumps : ∀ V : List JitBlock, (V.map c.key).Nodup → (∀ x ∈ V, c.Reaches b x) → c.codeJumps V ≤ maxJumps
  bucket : ∀ V : List JitBlock, (V.map c.key).Nodup → (∀ x ∈ V, c.Reaches b x) →
    ∀ i, (s.set i).length + c.inBucket i V < setSlotsSize

/-- The blocks `V` have been inserted since the state `s₀`. -/
structure Inserted (c : JitCall) (b : JitBlock) (s₀ s : JitState) (V : List JitBlock) : Prop where
  nodup : (V.map c.key).Nodup
  reach : ∀ x ∈ V, c.Reaches b x
  keys : ∀ x ∈ V, c.key x ∈ s.set (setHash c.bld (c.key x))
  bucket : ∀ i, (s.set i).length ≤ (s₀.set i).length + c.inBucket i V
  jumps : s.jumps.length ≤ c.codeJumps V
  n : s.offsetMap.length ≤ maxBlocks

section Spacious

variable {b : JitBlock} {s₀ : JitState}

theorem setHas_ok {bld : JitBuild} {t : CodeSet} (key : BitVec 64)
    (h : (t (setHash bld key)).length < setSlotsSize) : ∃ has, setHas bld t key = .ok has := by
  unfold setHas
  simp only
  split_ifs with hmem hroom
  · exact ⟨_, rfl⟩
  · exact ⟨_, rfl⟩
  · exact absurd (.inl h) hroom

theorem setAdd_ok {bld : JitBuild} {t : CodeSet} {key : BitVec 64} (hnew : key ∉ t (setHash bld key))
    (h : (t (setHash bld key)).length < setSlotsSize) : ∃ t', setAdd bld t key = .ok (t', true) ∧
      ∀ i, (t' i).length ≤ (t i).length + if setHash bld key = i then 1 else 0 := by
  unfold setAdd
  simp only
  rw [if_neg hnew, if_neg (by omega)]
  split_ifs with hzero
  · exact ⟨t, rfl, fun i => Nat.le_add_right _ _⟩
  · refine ⟨_, rfl, fun i => ?_⟩
    by_cases hi : setHash bld key = i
    · subst hi
      rw [Function.update_self, List.length_append, if_pos rfl]
      exact Nat.le_refl _
    · rw [Function.update_of_ne (Ne.symm hi)]
      exact Nat.le_add_right _ _

theorem Inserted.room {s : JitState} {V : List JitBlock} (h : Inserted c b s₀ s V) (hsp : c.Spacious b s₀)
    (i : Nat) : (s.set i).length < setSlotsSize := by
  have h₁ := h.bucket i
  have h₂ := hsp.bucket V h.nodup h.reach i
  omega

/-- A block that can be reached and is not in the set is inserted and translated. -/
theorem Inserted.translate {s : JitState} {V : List JitBlock} (h : Inserted c b s₀ s V) (hlk : c.Linked b)
    (hsp : c.Spacious b s₀) {x : JitBlock} (hx : c.Reaches b x) (hn : s.offsetMap.length < maxBlocks)
    (hnew : c.key x ∉ s.set (setHash c.bld (c.key x))) :
    ∃ t s', setAdd c.bld s.set (c.key x) = .ok (t, true) ∧
      c.translate x { s with set := t, offsetMap := s.offsetMap ++ [⟨x.pcStart, s.offset, x.satp⟩] } = .ok s' ∧
      Inserted c b s₀ s' (x :: V) ∧ s'.offsetMap.length = s.offsetMap.length + 1 := by
  obtain ⟨ops, hops⟩ := hlk.ops x hx
  obtain ⟨t, hadd, hlen⟩ := setAdd_ok hnew (h.room hsp _)
  obtain ⟨hold, hkey, -⟩ := setAdd_mem hadd
  have hfresh : c.key x ∉ V.map c.key := by
    intro hmem
    obtain ⟨y, hy, heq⟩ := List.mem_map.mp hmem
    have hk := h.keys y hy
    rw [heq] at hk
    exact hnew hk
  have hnodup : ((x :: V).map c.key).Nodup := List.nodup_cons.mpr ⟨hfresh, h.nodup⟩
  have hreach : ∀ y ∈ x :: V, c.Reaches b y := by
    intro y hy
    rcases List.mem_cons.mp hy with rfl | hy
    · exact hx
    · exact h.reach y hy
  have hcap := hsp.jumps (x :: V) hnodup hreach
  rw [codeJumps_cons, blockCode_eq hops] at hcap
  have hj := h.jumps
  have hfit : s.jumps.length + records ops ≤ maxJumps := by omega
  obtain ⟨s', hs, hset, hmap, hjumps, -⟩ := translate_fits
    (s := { s with set := t, offsetMap := s.offsetMap ++ [⟨x.pcStart, s.offset, x.satp⟩] }) hops hfit
  refine ⟨t, s', hadd, hs, ⟨hnodup, hreach, ?_, ?_, ?_, ?_⟩, ?_⟩
  · intro y hy
    rw [hset]
    rcases List.mem_cons.mp hy with rfl | hy
    · exact hkey (hsp.key y hx)
    · exact hold _ _ (h.keys y hy)
  · intro i
    have hb := h.bucket i
    have hl := hlen i
    rw [hset]
    unfold inBucket at hb ⊢
    rw [List.countP_cons]
    simp only [decide_eq_true_eq]
    omega
  · rw [codeJumps_cons, blockCode_eq hops]
    simp only at hjumps
    omega
  · rw [hmap, List.length_append]
    exact hn
  · rw [hmap, List.length_append]
    rfl

theorem Inserted.followLink {s : JitState} {V : List JitBlock} (h : Inserted c b s₀ s V) (hsp : c.Spacious b s₀)
    {rec : JitBlock → JitState → Except JitFault JitState} (must : Bool) (link : Option Word)
    (hmust : ∀ pc, link = some pc → must = true → ∃ y, c.cacheGet pc = some y)
    (hreach : ∀ pc y, link = some pc → c.cacheGet pc = some y → c.follows y = true → c.Reaches b y)
    (hrec : ∀ y, c.Reaches b y → ∃ s' V', rec y s = .ok s' ∧ Inserted c b s₀ s' V' ∧
      s.offsetMap.length ≤ s'.offsetMap.length) :
    ∃ s' V', c.followLink rec must link s = .ok s' ∧ Inserted c b s₀ s' V' ∧
      s.offsetMap.length ≤ s'.offsetMap.length := by
  cases link with
  | none => exact ⟨s, V, Followed.run (.none rfl), h, Nat.le_refl _⟩
  | some pc =>
    obtain ⟨has, hhas⟩ := setHas_ok (pc.setWidth 64) (h.room hsp _)
    cases has with
    | true => exact ⟨s, V, Followed.run (.old hhas rfl), h, Nat.le_refl _⟩
    | false =>
      cases hget : c.cacheGet pc with
      | none =>
        cases must with
        | false => exact ⟨s, V, Followed.run (.missing hhas hget rfl rfl), h, Nat.le_refl _⟩
        | true =>
          obtain ⟨y, hy⟩ := hmust pc rfl rfl
          rw [hget] at hy
          cases hy
      | some y =>
        cases hf : c.follows y with
        | false => exact ⟨s, V, Followed.run (.skipped hhas hget hf rfl), h, Nat.le_refl _⟩
        | true =>
          obtain ⟨s', V', hs, hins, hle⟩ := hrec y (hreach pc y rfl hget hf)
          exact ⟨s', V', Followed.run (.followed hhas hget hf hs), hins, hle⟩

/-- **With enough space no assertion fails**, whether or not the buffer is flushed. -/
theorem Inserted.translateChainedBlock (hlk : c.Linked b) (hsp : c.Spacious b s₀) {f : Nat} {x : JitBlock}
    {s : JitState} {V : List JitBlock} (h : Inserted c b s₀ s V) (hx : c.Reaches b x)
    (hf : maxBlocks < f + s.offsetMap.length) :
    ∃ s' V', c.translateChainedBlock f x s = .ok s' ∧ Inserted c b s₀ s' V' ∧
      s.offsetMap.length ≤ s'.offsetMap.length := by
  induction f generalizing x s V with
  | zero =>
    have := h.n
    omega
  | succ f ih =>
    obtain ⟨has, hhas⟩ := setHas_ok (c.key x) (h.room hsp _)
    cases has with
    | true => exact ⟨s, V, Chained.run (.old hhas rfl), h, Nat.le_refl _⟩
    | false =>
      by_cases hfull : s.offsetMap.length = maxBlocks
      · exact ⟨s, V, Chained.run (.full hhas hfull rfl), h, Nat.le_refl _⟩
      · have hn : s.offsetMap.length < maxBlocks := Nat.lt_of_le_of_ne h.n hfull
        obtain ⟨t, s₂, hadd, htr, h₂, hn₂⟩ := h.translate hlk hsp hx hn (setHas_false hhas)
        cases hflush : s₂.shouldFlush with
        | true => exact ⟨s₂, _, Chained.run (.new hhas hadd hn rfl htr (.inl ⟨hflush, rfl⟩)), h₂, by omega⟩
        | false =>
          obtain ⟨s₃, V₃, hs₃, h₃, hn₃⟩ := h₂.followLink hsp true x.tail.untaken
            (fun pc hpc _ => hlk.untaken x pc hx hpc)
            (fun pc y hpc hget hfol => .link hx (by simp [links, hpc]) hget hfol)
            fun y hy => ih h₂ hy (by omega)
          obtain ⟨s₄, V₄, hs₄, h₄, hn₄⟩ := h₃.followLink hsp true x.tail.taken
            (fun pc hpc _ => hlk.taken x pc hx hpc)
            (fun pc y hpc hget hfol => .link hx (by simp [links, hpc]) hget hfol)
            fun y hy => ih h₃ hy (by omega)
          obtain ⟨s₅, V₅, hs₅, h₅, hn₅⟩ := h₄.followLink hsp false (c.historyTarget x)
            (fun _ _ hmust => absurd hmust Bool.false_ne_true)
            (fun pc y hpc hget hfol => .link hx (by simp [links, hpc]) hget hfol)
            fun y hy => ih h₄ hy (by omega)
          exact ⟨s₅, V₅, Chained.run (.new hhas hadd hn rfl htr (.inr ⟨hflush, s₃, s₄, hs₃, hs₄, hs₅⟩)), h₅,
            by omega⟩

end Spacious

end JitCall

end Rv32emu
