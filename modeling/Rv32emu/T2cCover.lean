import Rv32emu.JitJumps
import Rv32emu.T2cTrace
import Rv32emu.T2cSound

/-!
# The blocks that a tier-2 function covers

* `TraceBlock.Follows`, `Traced` : a block that the last node of another is linked to, and what can be reached so;
* `Trace.Sound` : the `set_t` holds the addresses in the `LLVM_block_map`, and no LLVM block is entered for two blocks;
* `Trace.Grows` : what a call adds to the map: blocks that are reached, with all that follows them;
* `traceEbb_spec` : every call keeps the one and does the other;
* `function_covers` : the function has exactly the blocks that are reached, each in an LLVM block of its own.
-/

namespace Rv32emu

open Llvm

/-! ## Blocks that are reached -/

/-- The last node of `blk` is linked to `blk'`. -/
def TraceBlock.Follows (env : TraceEnv) (blk blk' : TraceBlock) : Prop :=
  ∃ tail pc, blk.irs.getLast? = some tail ∧ t2cInsnIsTerminal env.system tail.opcode = false ∧
    (blk.links.taken = some pc ∨ blk.links.untaken = some pc) ∧ env.find blk.satp pc = some blk'

/-- What can be reached from `root` over links. -/
def Traced (env : TraceEnv) (root : TraceBlock) : TraceBlock → Prop :=
  Relation.ReflTransGen (TraceBlock.Follows env) root

/-- The cache files blocks under their addresses. -/
def TraceEnv.Filed (env : TraceEnv) : Prop := ∀ pc blk, env.cache pc = some blk → blk.pc = some pc

theorem TraceEnv.find_eq_some {env : TraceEnv} {satp pc : Word} {blk : TraceBlock} (h : env.find satp pc = some blk) :
    env.cache pc = some blk ∧ blk.translatable = true ∧ (env.system = true → blk.satp = satp) := by
  obtain ⟨hcache, hok⟩ := Option.filter_eq_some_iff.mp h
  simp only [Bool.and_eq_true, Bool.or_eq_true, Bool.not_eq_true', beq_iff_eq] at hok
  exact ⟨hcache, hok.1, fun hsys => hok.2.resolve_left (by simp [hsys])⟩

/-- The address of a reached block says which it is. -/
theorem Traced.cache {env : TraceEnv} {root blk : TraceBlock} (hfiled : env.Filed) (h : Traced env root blk)
    {pc : Word} (hroot : root.pc = some pc → env.cache pc = some root) (hpc : blk.pc = some pc) :
    env.cache pc = some blk := by
  rcases Relation.ReflTransGen.cases_tail h with rfl | ⟨blk', -, tail, pc', -, -, -, hfind⟩
  · exact hroot hpc
  · obtain ⟨hcache, -⟩ := TraceEnv.find_eq_some hfind
    obtain rfl : pc' = pc := Option.some_inj.mp ((hfiled pc' blk hcache).symm.trans hpc)
    exact hcache

/-- Every block but the first is translatable, and in a `SYSTEM` build of the address space of the first. -/
theorem Traced.same_space {env : TraceEnv} {root blk : TraceBlock} (h : Traced env root blk) :
    blk = root ∨ blk.translatable = true ∧ (env.system = true → blk.satp = root.satp) := by
  induction h with
  | refl => exact .inl rfl
  | tail _ hstep ih =>
    obtain ⟨tail, pc, -, -, -, hfind⟩ := hstep
    obtain ⟨-, htrans, hsatp⟩ := TraceEnv.find_eq_some hfind
    refine .inr ⟨htrans, fun hsys => (hsatp hsys).trans ?_⟩
    rcases ih with rfl | ⟨-, ih⟩
    · rfl
    · exact ih hsys

/-! ## The set and the map -/

namespace Trace

def Maps (st : Trace) (pc : Word) : Prop := ∃ e, (pc, e) ∈ st.map

/-- The invariant of the tracer. The address 0 is never found in the set, so only there a block can be traced twice. -/
structure Sound (system : Bool) (st : Trace) : Prop where
  mapped : ∀ i (pc : Word), pc.setWidth 64 ∈ st.set i → st.Maps pc
  keys : ∀ x ∈ st.map, x.1 ≠ 0 → x.1.setWidth 64 ∈ st.set (setHash { system } (x.1.setWidth 64))
  unique : st.map.Pairwise fun x y => x.1 = y.1 → x.1 = 0
  entries : ∀ x ∈ st.map, x.2 < st.frag.count
  distinct : (st.map.map Prod.snd).Nodup

variable {system : Bool} {st st' : Trace} {pc : Word} {entry : Builder}

theorem has_eq_true (h : st.has system pc = some true) :
    pc.setWidth 64 ∈ st.set (setHash { system } (pc.setWidth 64)) := by
  unfold has at h
  cases heq : setHas { system } st.set (pc.setWidth 64) with
  | error e => rw [heq] at h; cases h
  | ok found =>
    rw [heq] at h
    obtain rfl : found = true := Option.some_inj.mp h
    exact JitCall.setHas_true heq

theorem has_eq_false (h : st.has system pc = some false) :
    pc.setWidth 64 ∉ st.set (setHash { system } (pc.setWidth 64)) := by
  unfold has at h
  cases heq : setHas { system } st.set (pc.setWidth 64) with
  | error e => rw [heq] at h; cases h
  | ok found =>
    rw [heq] at h
    obtain rfl : found = false := Option.some_inj.mp h
    exact JitCall.setHas_false heq

theorem blockMapInsert_eq_some (h : st.blockMapInsert entry pc = some st') :
    st' = { st with map := st.map ++ [(pc, entry)] } := by
  unfold blockMapInsert at h
  split_ifs at h
  exact (Option.some_inj.mp h).symm

/-- A block that is not in the set gets its element of the map. -/
theorem Sound.insert (h : st.Sound system) (hnew : st.has system pc = some false) {st1 : Trace}
    (hadd : st.add system pc = some st1) (hins : st1.blockMapInsert entry pc = some st')
    (hentry : entry < st.frag.count) (hfresh : ∀ x ∈ st.map, x.2 ≠ entry) :
    st'.Sound system ∧ st'.frag = st.frag ∧ st'.map = st.map ++ [(pc, entry)] := by
  obtain ⟨y, hy, rfl⟩ := Option.map_eq_some_iff.mp hadd
  obtain rfl := blockMapInsert_eq_some hins
  have hset : setAdd { system } st.set (pc.setWidth 64) = .ok (y.1, y.2) := by
    cases heq : setAdd { system } st.set (pc.setWidth 64) with
    | error e => rw [heq] at hy; cases hy
    | ok z => rw [heq] at hy; cases hy; rfl
  obtain ⟨hold, hkey, honly⟩ := JitCall.setAdd_mem hset
  refine ⟨⟨fun i q hq => ?_, fun x hx hne => ?_, ?_, fun x hx => ?_, ?_⟩, rfl, rfl⟩
  · rcases honly i _ hq with hq | hq
    · obtain ⟨e, he⟩ := h.mapped i q hq
      exact ⟨e, List.mem_append_left _ he⟩
    · obtain rfl : q = pc := setWidth_64_inj hq
      exact ⟨entry, List.mem_append_right _ List.mem_cons_self⟩
  · rcases List.mem_append.mp hx with hx | hx
    · exact hold _ _ (h.keys x hx hne)
    · obtain rfl := List.mem_singleton.mp hx
      refine hkey fun hzero => hne (setWidth_64_inj (y := 0) ?_)
      exact hzero
  · refine List.pairwise_append.mpr ⟨h.unique, List.pairwise_singleton _ _, fun x hx z hz heq => ?_⟩
    obtain rfl := List.mem_singleton.mp hz
    by_contra hne
    have hmem := h.keys x hx hne
    rw [heq] at hmem
    exact has_eq_false hnew hmem
  · rcases List.mem_append.mp hx with hx | hx
    · exact h.entries x hx
    · obtain rfl := List.mem_singleton.mp hx
      exact hentry
  · rw [List.map_append]
    refine List.nodup_append.mpr ⟨h.distinct, List.nodup_singleton _, fun e he e' he' => ?_⟩
    obtain ⟨x, hx, rfl⟩ := List.mem_map.mp he
    obtain rfl := List.mem_singleton.mp he'
    exact hfresh x hx

theorem Sound.frag (h : st.Sound system) {frag : Fragment HostPtr Gep} (hcount : st.frag.count ≤ frag.count) :
    ({ st with frag } : Trace).Sound system :=
  { h with entries := fun x hx => Nat.lt_of_lt_of_le (h.entries x hx) hcount }

end Trace

/-! ## What a call adds -/

/-- The code of the nodes of `blk`, placed at `e`, is in the function. -/
def TraceBlock.Placed (env : TraceEnv) (blk : TraceBlock) (e : Builder) (f : Fragment HostPtr Gep) : Prop :=
  ∃ f0 x, traceNodes (env.t2cEnv blk.satp) blk.links e blk.irs {} f0 = some x ∧ x.2.log <:+ f.log

def Trace.Has (st : Trace) (blk : TraceBlock) : Prop := ∃ pc, blk.pc = some pc ∧ st.Maps pc

/-- An element of the map that is complete: its block is reached, its code is there, and what follows it is in the
map. -/
def Trace.Complete (env : TraceEnv) (root : TraceBlock) (st : Trace) (x : Word × Builder) : Prop :=
  ∃ blk, Traced env root blk ∧ blk.pc = some x.1 ∧ blk.Placed env x.2 st.frag ∧
    ∀ blk', blk.Follows env blk' → st.Has blk'

namespace Trace

/-- `st'` has more code than `st`, and more elements of the map, all of them complete. -/
structure Grows (env : TraceEnv) (root : TraceBlock) (st st' : Trace) : Prop where
  count : st.frag.count ≤ st'.frag.count
  log : st.frag.log <:+ st'.frag.log
  map : st.map <+: st'.map
  complete : ∀ x ∈ st'.map, x ∈ st.map ∨ st'.Complete env root x

variable {env : TraceEnv} {root blk : TraceBlock} {st st1 st2 : Trace}

theorem Has.mono (h : st.Has blk) (hmap : st.map <+: st1.map) : st1.Has blk := by
  obtain ⟨pc, hpc, e, he⟩ := h
  exact ⟨pc, hpc, e, hmap.subset he⟩

theorem Complete.mono {x : Word × Builder} (h : st.Complete env root x) (hlog : st.frag.log <:+ st1.frag.log)
    (hmap : st.map <+: st1.map) : st1.Complete env root x := by
  obtain ⟨blk, htraced, hpc, ⟨f0, y, hnodes, hy⟩, hfollows⟩ := h
  exact ⟨blk, htraced, hpc, ⟨f0, y, hnodes, hy.trans hlog⟩, fun blk' h' => (hfollows blk' h').mono hmap⟩

theorem Grows.refl (env : TraceEnv) (root : TraceBlock) (st : Trace) : Grows env root st st :=
  ⟨Nat.le_refl _, List.suffix_refl _, List.prefix_refl _, fun _ hx => .inl hx⟩

theorem Grows.trans (h : Grows env root st st1) (h' : Grows env root st1 st2) : Grows env root st st2 where
  count := h.count.trans h'.count
  log := h.log.trans h'.log
  map := h.map.trans h'.map
  complete x hx := by
    rcases h'.complete x hx with hx | hx
    · exact (h.complete x hx).imp_right fun hc => hc.mono h'.log h'.map
    · exact .inr hx

theorem Grows.frag (env : TraceEnv) (root : TraceBlock) (st : Trace) {frag : Fragment HostPtr Gep}
    (hcount : st.frag.count ≤ frag.count) (hlog : st.frag.log <:+ frag.log) : Grows env root st { st with frag } :=
  ⟨hcount, hlog, List.prefix_refl _, fun _ hx => .inl hx⟩

end Trace

theorem traceNodes_grows {cfg : T2cEnv} {lk : T2cLinks} {entry : Builder} {irs : List Insn} {handed : Handed}
    {f : Fragment HostPtr Gep} {x : Handed × Fragment HostPtr Gep}
    (h : traceNodes cfg lk entry irs handed f = some x) : f.count ≤ x.2.count ∧ f.log <:+ x.2.log := by
  induction irs generalizing handed f with
  | nil => cases h
  | cons ir rest ih =>
    obtain ⟨y, -, hy⟩ := Option.bind_eq_some_iff.mp h
    have happend : f.count ≤ (f.append entry y.2).count ∧ f.log <:+ (f.append entry y.2).log :=
      ⟨Nat.le_add_right .., List.suffix_append ..⟩
    simp only at hy
    split_ifs at hy
    · cases hy
      exact happend
    · obtain ⟨hcount, hlog⟩ := ih hy
      exact ⟨happend.1.trans hcount, happend.2.trans hlog⟩

/-! ## The tracer -/

section Spec

variable {env : TraceEnv} {root : TraceBlock}

/-- What a call of the tracer for `blk` does. -/
def Traces (env : TraceEnv) (root : TraceBlock) (trace : Builder → TraceBlock → Trace → Option Trace) : Prop :=
  ∀ entry blk st st', trace entry blk st = some st' → Traced env root blk → st.Sound env.system →
    entry < st.frag.count → (∀ x ∈ st.map, x.2 ≠ entry) →
    st.Grows env root st' ∧ st'.Sound env.system ∧ st'.Has blk

/-- A link is followed: the block behind it is in the map then. -/
theorem follow_spec (hfiled : env.Filed) {trace : Builder → TraceBlock → Trace → Option Trace}
    (htrace : Traces env root trace) {satp : Word} {builder : Option Builder} {link : Option Word} {st st' : Trace}
    (h : st.follow env satp trace builder link = some st') (hsound : st.Sound env.system)
    (hlink : ∀ pc blk, link = some pc → env.find satp pc = some blk → Traced env root blk) :
    st.Grows env root st' ∧ st'.Sound env.system ∧
      ∀ pc blk, link = some pc → env.find satp pc = some blk → st'.Has blk := by
  obtain ⟨rfl, hnone⟩ | ⟨pc, b, rfl, -, ⟨hfound, dest, -, rfl⟩ | ⟨-, blk, hfind, hcall⟩⟩ := Trace.follow_cases h
  · refine ⟨.refl env root _, hsound, fun pc blk hpc hfind => ?_⟩
    rw [hnone pc hpc] at hfind
    cases hfind
  · refine ⟨.frag env root st (Nat.le_refl _) (List.suffix_cons ..), hsound.frag (Nat.le_refl _), ?_⟩
    intro pc' blk hpc hfind
    cases hpc
    exact ⟨pc, hfiled pc blk (TraceEnv.find_eq_some hfind).1, hsound.mapped _ pc (Trace.has_eq_true hfound)⟩
  · -- the new block of the function, and the branch to it
    obtain ⟨st1, hst1⟩ : ∃ st1 : Trace, st1 =
        { st with frag := ({ st.frag with count := st.frag.count + 1 } : Fragment HostPtr Gep).buildBr b
                    st.frag.count } := ⟨_, rfl⟩
    rw [← hst1] at hcall
    have hgrows : st.Grows env root st1 := by
      rw [hst1]
      exact .frag env root st (Nat.le_succ _) (List.suffix_cons ..)
    have hsound1 : st1.Sound env.system := by
      rw [hst1]
      exact hsound.frag (Nat.le_succ _)
    have hfresh : ∀ x ∈ st1.map, x.2 ≠ st.frag.count := by
      rw [hst1]
      exact fun x hx => (hsound.entries x hx).ne
    have hlt : st.frag.count < st1.frag.count := by
      rw [hst1]
      exact Nat.lt_succ_self _
    obtain ⟨hgrows', hsound', hhas⟩ :=
      htrace st.frag.count blk st1 st' hcall (hlink pc blk rfl hfind) hsound1 hlt hfresh
    refine ⟨hgrows.trans hgrows', hsound', fun pc' blk' hpc hfind' => ?_⟩
    cases hpc
    obtain rfl : blk = blk' := Option.some_inj.mp (hfind.symm.trans hfind')
    exact hhas

/-- A block whose links have been followed is complete. -/
theorem complete_of_links {st : Trace} {blk : TraceBlock} {pc : Word} {entry : Builder} (htraced : Traced env root blk)
    (hpc : blk.pc = some pc) (hplaced : blk.Placed env entry st.frag)
    (hlinks : ∀ tail, blk.irs.getLast? = some tail → t2cInsnIsTerminal env.system tail.opcode = false →
      ∀ q blk', blk.links.taken = some q ∨ blk.links.untaken = some q → env.find blk.satp q = some blk' → st.Has blk') :
    st.Complete env root (pc, entry) := by
  refine ⟨blk, htraced, hpc, hplaced, ?_⟩
  rintro blk' ⟨tail, q, htail, hterm, hq, hfind⟩
  exact hlinks tail htail hterm q blk' hq hfind

/-- Behind the nodes of a new block: its element is complete, and the rest is what the links have added. -/
theorem grows_of_new {st st3 st' : Trace} {pc : Word} {entry : Builder} (hmap : st3.map = st.map ++ [(pc, entry)])
    (hcount : st.frag.count ≤ st3.frag.count) (hlog : st.frag.log <:+ st3.frag.log) (h : st3.Grows env root st')
    (hnew : st'.Complete env root (pc, entry)) : st.Grows env root st' where
  count := hcount.trans h.count
  log := hlog.trans h.log
  map := (hmap ▸ List.prefix_append _ _ : st.map <+: st3.map).trans h.map
  complete x hx := by
    rcases h.complete x hx with hx | hx
    · rw [hmap] at hx
      rcases List.mem_append.mp hx with hx | hx
      · exact .inl hx
      · obtain rfl := List.mem_singleton.mp hx
        exact .inr hnew
    · exact .inr hx

/-- **A call of the tracer keeps the invariant, and adds its block with all that follows it**, by induction on the depth
of the calls. -/
theorem traceEbb_spec (hfiled : env.Filed) (fuel : Nat) : Traces env root (traceEbb env fuel) := by
  induction fuel with
  | zero => exact fun _ _ _ _ h => by cases h
  | succ fuel ih =>
    intro entry blk st st' h htraced hsound hentry hfresh
    obtain ⟨pc, hpc, ⟨hfound, rfl⟩ | ⟨hfound, st1, st2, x, tail, hadd, hins, hnodes, htail, hend⟩⟩ := traceEbb_cases h
    · exact ⟨.refl env root _, hsound, pc, hpc, hsound.mapped _ pc (Trace.has_eq_true hfound)⟩
    · obtain ⟨hsound2, hfrag2, hmap2⟩ := hsound.insert hfound hadd hins hentry hfresh
      obtain ⟨hcount, hlog⟩ := traceNodes_grows hnodes
      have hsound3 : ({ st2 with frag := x.2 } : Trace).Sound env.system := hsound2.frag hcount
      rw [hfrag2] at hcount hlog
      have hmap3 : ({ st2 with frag := x.2 } : Trace).map = st.map ++ [(pc, entry)] := hmap2
      have hplaced {f : Fragment HostPtr Gep} (hf : x.2.log <:+ f.log) : blk.Placed env entry f :=
        ⟨st2.frag, x, hnodes, hf⟩
      have hhas {st4 : Trace} (hmap : st2.map <+: st4.map) : st4.Has blk :=
        ⟨pc, hpc, entry, hmap.subset (hmap2 ▸ List.mem_append_right _ List.mem_cons_self)⟩
      obtain ⟨hterm, rfl⟩ | ⟨hterm, st3, huntaken, htaken⟩ := hend
      · refine ⟨grows_of_new hmap3 hcount hlog (.refl env root _) ?_, hsound3, hhas (List.prefix_refl _)⟩
        refine complete_of_links htraced hpc (hplaced (List.suffix_refl _)) fun tail' htail' hterm' => ?_
        obtain rfl : tail = tail' := Option.some_inj.mp (htail.symm.trans htail')
        rw [hterm] at hterm'
        cases hterm'
      · have hlink {q : Word} {blk' : TraceBlock} (hq : blk.links.taken = some q ∨ blk.links.untaken = some q)
            (hfind : env.find blk.satp q = some blk') : Traced env root blk' :=
          htraced.tail ⟨tail, q, htail, hterm, hq, hfind⟩
        obtain ⟨hgrows3, hsound3', hhas3⟩ :=
          follow_spec hfiled ih huntaken hsound3 fun q blk' hq => hlink (.inr hq)
        obtain ⟨hgrows', hsound', hhas'⟩ := follow_spec hfiled ih htaken hsound3' fun q blk' hq => hlink (.inl hq)
        have hgrows := hgrows3.trans hgrows'
        refine ⟨grows_of_new hmap3 hcount hlog hgrows ?_, hsound', hhas hgrows.map⟩
        refine complete_of_links htraced hpc (hplaced hgrows.log) fun _ _ _ q blk' hq hfind => ?_
        rcases hq with hq | hq
        · exact hhas' q blk' hq hfind
        · exact (hhas3 q blk' hq hfind).mono hgrows'.map

end Spec

/-! ## The function -/

/-- A function under construction for `root` that has exactly the blocks that are reached, with their code. An address
but 0 has one LLVM block, and an LLVM block one address. -/
structure CoversTraced (env : TraceEnv) (root : TraceBlock) (f : Trace) : Prop where
  blocks : ∀ pc, f.Maps pc ↔ ∃ blk, Traced env root blk ∧ blk.pc = some pc
  unique : f.map.Pairwise fun x y => x.1 = y.1 → x.1 = 0
  distinct : (f.map.map Prod.snd).Nodup
  code : ∀ x ∈ f.map, x.2 < f.frag.count ∧ ∃ blk, Traced env root blk ∧ blk.pc = some x.1 ∧
    blk.Placed env x.2 f.frag ∧ (blk = root ∨ blk.translatable = true ∧ (env.system = true → blk.satp = root.satp))

/-- **The function that `t2c_compile` builds for a block of the cache has the code of exactly the blocks that can be
reached from it**, all translatable and of its address space. -/
theorem function_covers {env : TraceEnv} {root : TraceBlock} {f : Trace} (hfiled : env.Filed)
    (hroot : ∀ pc, root.pc = some pc → env.cache pc = some root) (h : t2cFunction env root = some f) :
    CoversTraced env root f := by
  have hempty : ({ frag := firstBlock } : Trace).Sound env.system :=
    ⟨fun _ _ hq => absurd hq List.not_mem_nil, fun _ hx => absurd hx List.not_mem_nil, List.Pairwise.nil,
      fun _ hx => absurd hx List.not_mem_nil, List.nodup_nil⟩
  obtain ⟨hgrows, hsound, hhas⟩ :=
    traceEbb_spec hfiled (t2cMaxBlocks + 1) 1 root _ f h .refl hempty (by decide)
      fun _ hx => absurd hx List.not_mem_nil
  have hcomplete (x : Word × Builder) (hx : x ∈ f.map) : f.Complete env root x :=
    (hgrows.complete x hx).resolve_left List.not_mem_nil
  -- by induction on the links that lead to the block
  have hreached (blk : TraceBlock) (htraced : Traced env root blk) : f.Has blk := by
    induction htraced with
    | refl => exact hhas
    | @tail blk blk' htraced hstep ih =>
      obtain ⟨pc, hpc, e, he⟩ := ih
      obtain ⟨blk0, htraced0, hpc0, -, hfollows⟩ := hcomplete (pc, e) he
      obtain rfl : blk0 = blk :=
        Option.some_inj.mp
          ((Traced.cache hfiled htraced0 (hroot pc) hpc0).symm.trans (Traced.cache hfiled htraced (hroot pc) hpc))
      exact hfollows blk' hstep
  refine ⟨fun pc => ⟨?_, ?_⟩, hsound.unique, hsound.distinct, fun x hx => ⟨hsound.entries x hx, ?_⟩⟩
  · rintro ⟨e, he⟩
    obtain ⟨blk, htraced, hpc, -⟩ := hcomplete (pc, e) he
    exact ⟨blk, htraced, hpc⟩
  · rintro ⟨blk, htraced, hpc⟩
    obtain ⟨q, hq, hmaps⟩ := hreached blk htraced
    obtain rfl : q = pc := Option.some_inj.mp (hq.symm.trans hpc)
    exact hmaps
  · obtain ⟨blk, htraced, hpc, hplaced, -⟩ := hcomplete x hx
    exact ⟨blk, htraced, hpc, hplaced, htraced.same_space⟩

/-- A loop at 4, with a return behind it at 12. -/
def loopEnv : TraceEnv where
  system := false
  memBase := 0
  cache pc :=
    if pc = 4 then some
      { irs := [{ opcode := .addi, rd := 10, rs1 := 10, imm := -1, pc := 4 },
          { opcode := .bne, rs1 := 10, imm := -4, pc := 8 }]
        links := { taken := some 4, untaken := some 12 } }
    else if pc = 12 then some { irs := [{ opcode := .jalr, rs1 := 1, pc := 12 }] }
    else none

theorem loopEnv_filed : loopEnv.Filed := by
  intro pc blk h
  simp only [loopEnv] at h
  split_ifs at h with h4 h12
  · cases h
    exact congrArg some h4.symm
  · cases h
    exact congrArg some h12.symm

/-- The function for the loop. -/
theorem function_covers_loop : ∃ root f, loopEnv.cache 4 = some root ∧ t2cFunction loopEnv root = some f ∧
    CoversTraced loopEnv root f := by
  obtain ⟨root, hroot⟩ := Option.isSome_iff_exists.mp (by decide : (loopEnv.cache 4).isSome = true)
  have hsome : ((loopEnv.cache 4).bind (t2cFunction loopEnv)).isSome = true := by decide +kernel
  rw [hroot] at hsome
  obtain ⟨f, hf⟩ := Option.isSome_iff_exists.mp hsome
  refine ⟨root, f, hroot, hf, function_covers loopEnv_filed (fun pc hpc => ?_) hf⟩
  obtain rfl : 4 = pc := Option.some_inj.mp ((loopEnv_filed 4 root hroot).symm.trans hpc)
  exact hroot

end Rv32emu
