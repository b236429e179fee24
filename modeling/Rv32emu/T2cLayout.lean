import Rv32emu.T2cShape

/-!
# Where the code of a tier-2 function lies

In a user-mode build.

* `NodesOk` : nodes that fall through, but for the last;
* `NodesAt` : the code of nodes is the content of an LLVM block, with `rest` behind it;
* `LinksAt`, `Compiled` : the branches to the linked blocks, and an element of the map whose code is all there;
* `Laid` : what a call of the tracer does to the blocks of the function: its own are compiled, the others stay;
* `function_compiled` : every element of the map of a finished function is compiled.
-/

namespace Rv32emu

open Llvm

/-! ## The code of a block -/

inductive NodesOk : List Insn → Prop
  | tail {ir : Insn} (h : ir.Falls ∨ ir.Ends) : NodesOk [ir]
  | node {ir next : Insn} {irs : List Insn} (h : ir.Falls) (hirs : NodesOk (next :: irs)) : NodesOk (ir :: next :: irs)

/-- The items are the code of the nodes, placed at `e`, with `rest` behind the blocks of the last of them; `own` are
the blocks that are used, and `out` the builders that are handed over. -/
inductive NodesAt (cfg : T2cEnv) (lk : T2cLinks) (f : Fragment HostPtr Gep) (e : Builder) (own : Builder → Prop)
    (rest : Builder → List (Item HostPtr Gep)) (out : Handed) : List Insn → List (Item HostPtr Gep) → Prop
  | tail {ir : Insn} {handed : Handed} {c : Fragment HostPtr Gep} {k count : Nat}
      (hcode : t2c cfg lk ir {} = some (handed, c)) (hform : Formed handed c) (he : e < count)
      (hout : out = handed.place (place e count) {}) (hown : ∀ j < c.count, own (place e count j))
      (hlies : ∀ j, 0 < j → j < c.count → f.block (place e count j) =
        (c.block j).map (Item.place k (place e count)) ++ rest (place e count j)) :
      NodesAt cfg lk f e own rest out [ir] ((c.block 0).map (Item.place k (place e count)) ++ rest e)
  | node {ir next : Insn} {irs : List Insn} {c : Fragment HostPtr Gep} {k count : Nat} {items : List (Item HostPtr Gep)}
      (hcode : t2c cfg {} ir {} = some ({}, c)) (hform : Formed {} c) (hcount : c.count = 1)
      (h : NodesAt cfg lk f e own rest out (next :: irs) items) :
      NodesAt cfg lk f e own rest out (ir :: next :: irs) ((c.block 0).map (Item.place k (place e count)) ++ items)

section NodesAt

variable {cfg : T2cEnv} {lk : T2cLinks} {f f' : Fragment HostPtr Gep} {e : Builder} {own own' : Builder → Prop}
  {rest : Builder → List (Item HostPtr Gep)} {out : Handed} {irs : List Insn} {items : List (Item HostPtr Gep)}

theorem NodesAt.add (h : NodesAt cfg lk f e own rest out irs items) (add : Builder → List (Item HostPtr Gep))
    (hadd : ∀ b, own b → f'.block b = f.block b ++ add b) :
    NodesAt cfg lk f' e own (fun b => rest b ++ add b) out irs (items ++ add e) := by
  induction h with
  | tail hcode hform he hout hown hlies =>
    rw [List.append_assoc]
    refine .tail hcode hform he hout hown fun j hj hlt => ?_
    rw [hadd _ (hown j hlt), hlies j hj hlt, List.append_assoc]
  | node hcode hform hcount _ ih =>
    rw [List.append_assoc]
    exact .node hcode hform hcount ih

theorem NodesAt.congr (h : NodesAt cfg lk f e own rest out irs items) (hsame : ∀ b, own b → f'.block b = f.block b) :
    NodesAt cfg lk f' e own rest out irs items := by
  have hadd := h.add (fun _ => []) fun b hb => (hsame b hb).trans (List.append_nil _).symm
  simpa only [List.append_nil] using hadd

theorem NodesAt.mono (h : NodesAt cfg lk f e own rest out irs items) (hown : ∀ b, own b → own' b) :
    NodesAt cfg lk f e own' rest out irs items := by
  induction h with
  | tail hcode hform he hout hown' hlies => exact .tail hcode hform he hout (fun j hj => hown _ (hown' j hj)) hlies
  | node hcode hform hcount _ ih => exact .node hcode hform hcount ih

/-- The builders that are handed over stand at blocks that are used, and so does `*builder`. -/
theorem NodesAt.out_own (h : NodesAt cfg lk f e own rest out irs items) :
    own e ∧ (∀ b, out.taken = some b → own b) ∧ ∀ b, out.untaken = some b → own b := by
  induction h with
  | tail hcode hform he hout hown hlies =>
    subst hout
    refine ⟨hown 0 hform.count, fun b hb => ?_, fun b hb => ?_⟩
    · obtain ⟨j, hj, rfl⟩ := Option.map_eq_some_iff.mp ((Option.or_none).symm.trans hb)
      exact hown j (hform.taken j hj)
    · obtain ⟨j, hj, rfl⟩ := Option.map_eq_some_iff.mp ((Option.or_none).symm.trans hb)
      exact hown j (hform.untaken j hj)
  | node _ _ _ _ ih => exact ih

end NodesAt

/-- What the nodes of a block do to the function. -/
theorem traceNodes_at {cfg : T2cEnv} (hcfg : cfg.system = false) {lk : T2cLinks} {e : Builder} {irs : List Insn}
    (hok : NodesOk irs) {f : Fragment HostPtr Gep} {x : Handed × Fragment HostPtr Gep} (hf : f.Bounded)
    (he : e < f.count) (h : traceNodes cfg lk e irs {} f = some x) :
    x.2.Bounded ∧ f.count ≤ x.2.count ∧ (∀ j < f.count, j ≠ e → x.2.block j = f.block j) ∧
      ∃ items, x.2.block e = f.block e ++ items ∧
        NodesAt cfg lk x.2 e (fun j => (j = e ∨ f.count ≤ j) ∧ j < x.2.count) (fun _ => []) x.1 irs items := by
  obtain ⟨sys, mb, chk⟩ := cfg
  obtain rfl : sys = false := hcfg
  induction hok generalizing f with
  | @tail ir hir =>
    obtain ⟨handed, c, hcode, hform⟩ : ∃ handed c, t2c ⟨false, mb, chk⟩ lk ir {} = some (handed, c) ∧
        Formed handed c := by
      rcases hir with hir | hir
      · obtain ⟨c, hcode, hform, -⟩ := t2c_falls mb chk lk hir
        exact ⟨{}, c, hcode, hform⟩
      · exact t2c_ends mb chk lk hir
    obtain rfl : x = (handed.place (place e f.count) {}, f.append e c) := by
      simp only [traceNodes, List.isEmpty_nil, if_true, hcode, Option.bind_some] at h
      exact (Option.some_inj.mp h).symm
    refine ⟨hf.append hform.bounded he, Nat.le_add_right .., fun j hj hne => Fragment.block_append_of_ne c hj hne,
      _, Fragment.block_append c he 0, ?_⟩
    rw [← List.append_nil (List.map _ _)]
    refine .tail hcode hform he rfl (fun j hj => ⟨?_, place_lt he hj⟩) fun j hj _ => ?_
    · cases j with
      | zero => exact .inl rfl
      | succ j => exact .inr (Nat.le_add_right ..)
    · rw [Fragment.block_append c he j, hf.block_eq_nil, List.nil_append, List.append_nil]
      cases j with
      | zero => cases hj
      | succ j => exact Nat.le_add_right ..
  | @node ir next irs hir _ ih =>
    obtain ⟨c, hcode, hform, hcount⟩ := t2c_falls mb chk {} hir
    obtain ⟨f1, hf1⟩ : ∃ f1, f1 = f.append e c := ⟨_, rfl⟩
    have hrest : traceNodes ⟨false, mb, chk⟩ lk e (next :: irs) {} f1 = some x := by
      rw [hf1, ← h]
      conv_rhs => rw [traceNodes]
      simp only [List.isEmpty_cons, Bool.false_eq_true, if_false, hcode, Option.bind_some]
      rfl
    have hlen : f1.count = f.count := by
      rw [hf1, Fragment.append, hcount]
      rfl
    obtain ⟨hbounded, hle, hframe, items, hblock, hat⟩ :=
      ih (hf1 ▸ hf.append hform.bounded he) (hlen.symm ▸ he) hrest
    rw [hlen] at hle hframe hat
    refine ⟨hbounded, hle, fun j hj hne => ?_, (c.block 0).map (Item.place f.regs (place e f.count)) ++ items, ?_,
      .node hcode hform hcount hat⟩
    · rw [hframe j hj hne, hf1, Fragment.block_append_of_ne c hj hne]
    · have hb : f1.block e = f.block e ++ (c.block 0).map (Item.place f.regs (place e f.count)) := by
        rw [hf1]
        exact Fragment.block_append c he 0
      rw [hblock, hb, List.append_assoc]

/-! ## Elements of the map -/

/-- Behind the last node there are the branches to the linked blocks. If both start from one builder, the one to the
untaken block is first. -/
structure LinksAt (env : TraceEnv) (blk : TraceBlock) (st : Trace) (e : Builder)
    (rest : Builder → List (Item HostPtr Gep)) (out : Handed) : Prop where
  untaken : ∀ pc blk', blk.links.untaken = some pc → env.find blk.satp pc = some blk' →
    ∃ dest, (pc, dest) ∈ st.map ∧ (rest (out.untaken.getD e)).head? = some (.br dest)
  taken : ∀ pc blk', blk.links.taken = some pc → env.find blk.satp pc = some blk' →
    (blk.links.untaken = none ∨ out.taken.getD e ≠ out.untaken.getD e) →
    ∃ dest, (pc, dest) ∈ st.map ∧ (rest (out.taken.getD e)).head? = some (.br dest)

/-- An element of the map, with the code of its block in the blocks `own`. -/
def Compiled (env : TraceEnv) (root : TraceBlock) (st : Trace) (own : Builder → Prop) (x : Word × Builder) : Prop :=
  ∃ blk rest out, Traced env root blk ∧ blk.pc = some x.1 ∧
    NodesAt (env.t2cEnv blk.satp) blk.links st.frag x.2 own rest out blk.irs (st.frag.block x.2) ∧
    ((∃ tail, blk.irs.getLast? = some tail ∧ t2cInsnIsTerminal env.system tail.opcode = true) ∨
      LinksAt env blk st x.2 rest out)

section Compiled

variable {env : TraceEnv} {root : TraceBlock} {st st' : Trace} {own own' : Builder → Prop} {x : Word × Builder}

theorem LinksAt.mono {blk : TraceBlock} {e : Builder} {rest : Builder → List (Item HostPtr Gep)} {out : Handed}
    (h : LinksAt env blk st e rest out) (hmap : st.map <+: st'.map) : LinksAt env blk st' e rest out where
  untaken pc blk' hpc hfind := by
    obtain ⟨dest, hdest, hrest⟩ := h.untaken pc blk' hpc hfind
    exact ⟨dest, hmap.subset hdest, hrest⟩
  taken pc blk' hpc hfind hne := by
    obtain ⟨dest, hdest, hrest⟩ := h.taken pc blk' hpc hfind hne
    exact ⟨dest, hmap.subset hdest, hrest⟩

theorem Compiled.mono (h : Compiled env root st own x) (hmap : st.map <+: st'.map)
    (hsame : ∀ b, own b → st'.frag.block b = st.frag.block b) (hown : ∀ b, own b → own' b) :
    Compiled env root st' own' x := by
  obtain ⟨blk, rest, out, htraced, hpc, hat, hlinks⟩ := h
  refine ⟨blk, rest, out, htraced, hpc, ?_, hlinks.imp_right fun hl => hl.mono hmap⟩
  rw [hsame _ hat.out_own.1]
  exact (hat.congr hsame).mono hown

end Compiled

/-! ## The tracer -/

/-- The blocks behind the first `n`, and `e`. -/
def ownBlocks (e : Option Builder) (n m : Nat) (b : Builder) : Prop := (some b = e ∨ n ≤ b) ∧ b < m

/-- A call adds its own code, and elements of the map that are compiled in its own blocks. -/
structure Laid (env : TraceEnv) (root : TraceBlock) (e : Option Builder) (st st' : Trace) : Prop where
  bounded : st'.frag.Bounded
  count : st.frag.count ≤ st'.frag.count
  map : st.map <+: st'.map
  code : ∀ x ∈ st'.map, x ∈ st.map ∨ Compiled env root st' (ownBlocks e st.frag.count st'.frag.count) x

/-- What a call of the tracer does to the blocks of the function. -/
def Lays (env : TraceEnv) (root : TraceBlock) (trace : Builder → TraceBlock → Trace → Option Trace) : Prop :=
  ∀ entry blk st st', trace entry blk st = some st' → Traced env root blk → st.frag.Bounded → entry < st.frag.count →
    st.frag.block entry = [] →
    Laid env root (some entry) st st' ∧ (∀ j < st.frag.count, j ≠ entry → st'.frag.block j = st.frag.block j) ∧
      ∀ pc, blk.pc = some pc → st.has env.system pc = some false → (pc, entry) ∈ st'.map

section Spec

variable {env : TraceEnv} {root : TraceBlock}

theorem Laid.refl {e : Option Builder} {st : Trace} (hf : st.frag.Bounded) : Laid env root e st st where
  bounded := hf
  count := Nat.le_refl _
  map := List.prefix_refl _
  code _ hx := .inl hx

theorem Laid.trans {st st1 st2 : Trace} (h : Laid env root none st st1) (h' : Laid env root none st1 st2)
    (hsame : ∀ j, st.frag.count ≤ j → j < st1.frag.count → st2.frag.block j = st1.frag.block j) :
    Laid env root none st st2 where
  bounded := h'.bounded
  count := h.count.trans h'.count
  map := h.map.trans h'.map
  code x hx := by
    rcases h'.code x hx with hx | hx
    · refine (h.code x hx).imp_right fun hx => hx.mono h'.map (fun j hj => ?_) fun j hj => ⟨.inr ?_, ?_⟩
      · exact hsame j (hj.1.resolve_left (by simp)) hj.2
      · exact hj.1.resolve_left (by simp)
      · exact Nat.lt_of_lt_of_le hj.2 h'.count
    · refine .inr (hx.mono (List.prefix_refl _) (fun _ _ => rfl) fun j hj => ⟨.inr ?_, hj.2⟩)
      exact h.count.trans (hj.1.resolve_left (by simp))

/-- A block of the function that is compiled itself, and what its links add. -/
theorem Laid.enter {entry : Builder} {st st1 st' : Trace} {x : Word × Builder} (h : Laid env root none st1 st')
    (hcount : st.frag.count ≤ st1.frag.count) (hmap : st1.map = st.map ++ [x])
    (hx : Compiled env root st' (ownBlocks (some entry) st.frag.count st'.frag.count) x) :
    Laid env root (some entry) st st' where
  bounded := h.bounded
  count := hcount.trans h.count
  map := (hmap ▸ List.prefix_append _ _ : st.map <+: st1.map).trans h.map
  code y hy := by
    rcases h.code y hy with hy | hy
    · rw [hmap] at hy
      refine (List.mem_append.mp hy).imp_right fun hy => ?_
      obtain rfl := List.mem_singleton.mp hy
      exact hx
    · refine .inr (hy.mono (List.prefix_refl _) (fun _ _ => rfl) fun j hj => ⟨.inr ?_, hj.2⟩)
      exact hcount.trans (hj.1.resolve_left (by simp))

theorem Trace.mem_of_search {st : Trace} {pc : Word} {dest : Builder} (h : st.blockMapSearch pc = some dest) :
    (pc, dest) ∈ st.map := by
  obtain ⟨x, hx, rfl⟩ := Option.map_eq_some_iff.mp h
  obtain rfl : x.1 = pc := by simpa using List.find?_some hx
  exact List.mem_of_find?_eq_some hx

/-- A link is followed: a branch to the block behind it stands at the builder. -/
theorem follow_laid (hfiled : env.Filed) {trace : Builder → TraceBlock → Trace → Option Trace}
    (htrace : Lays env root trace) {satp : Word} {builder : Option Builder} {link : Option Word} {st st' : Trace}
    (h : st.follow env satp trace builder link = some st') (hf : st.frag.Bounded)
    (hbuilder : ∀ b, builder = some b → b < st.frag.count)
    (hlink : ∀ pc blk, link = some pc → env.find satp pc = some blk → Traced env root blk) :
    Laid env root none st st' ∧ ∃ add : Builder → List (Item HostPtr Gep),
      (∀ j < st.frag.count, st'.frag.block j = st.frag.block j ++ add j) ∧
      (∀ j, add j ≠ [] → builder = some j ∧ link.isSome = true) ∧
      ∀ pc blk, link = some pc → env.find satp pc = some blk →
        ∃ b dest, builder = some b ∧ (pc, dest) ∈ st'.map ∧ add b = [.br dest] := by
  have hnone (st : Trace) : ∀ j < st.frag.count, st.frag.block j = st.frag.block j ++ [] := fun j _ =>
    (List.append_nil _).symm
  have hadd (b dest j : Builder) (hj : (if b = j then [Item.br dest] else [] : List (Item HostPtr Gep)) ≠ []) :
      b = j := by
    by_contra hbj
    exact hj (if_neg hbj)
  obtain ⟨rfl, hnone⟩ | ⟨pc, b, rfl, rfl, ⟨-, dest, hdest, rfl⟩ | ⟨hfound, blk, hfind, hcall⟩⟩ := Trace.follow_cases h
  · refine ⟨.refl hf, fun _ => [], fun j _ => (List.append_nil _).symm, fun j hj => absurd rfl hj,
      fun pc blk hpc hfind => ?_⟩
    rw [hnone pc hpc] at hfind
    cases hfind
  · refine ⟨⟨hf.buildBr (hbuilder b rfl) dest, Nat.le_refl _, List.prefix_refl _, fun x hx => .inl hx⟩,
      fun j => if b = j then [.br dest] else [], fun j _ => Fragment.block_buildBr st.frag b dest j,
      fun j hj => ⟨congrArg some (hadd b dest j hj), rfl⟩, fun pc' blk hpc _ => ?_⟩
    cases hpc
    exact ⟨b, dest, rfl, Trace.mem_of_search hdest, if_pos rfl⟩
  · have hb := hbuilder b rfl
    -- the new block of the function, and the branch to it
    obtain ⟨st1, hst1⟩ : ∃ st1 : Trace, st1 =
        { st with frag := ({ st.frag with count := st.frag.count + 1 } : Fragment HostPtr Gep).buildBr b
                    st.frag.count } := ⟨_, rfl⟩
    rw [← hst1] at hcall
    have hcount : st1.frag.count = st.frag.count + 1 := by
      rw [hst1]
      rfl
    have hblock (j : Builder) :
        st1.frag.block j = st.frag.block j ++ if b = j then [.br st.frag.count] else [] := by
      rw [hst1]
      exact Fragment.block_buildBr { st.frag with count := st.frag.count + 1 } b st.frag.count j
    have hbounded : st1.frag.Bounded := by
      have hmore : ({ st.frag with count := st.frag.count + 1 } : Fragment HostPtr Gep).Bounded := fun j i hi =>
        Nat.lt_succ_of_lt (hf j i hi)
      rw [hst1]
      exact hmore.buildBr (Nat.lt_succ_of_lt hb) st.frag.count
    have hempty : st1.frag.block st.frag.count = [] := by
      rw [hblock, hf.block_eq_nil (Nat.le_refl _), if_neg hb.ne, List.append_nil]
    have hmap : st1.map = st.map := by rw [hst1]
    have hhas : st1.has env.system pc = some false := by
      rw [hst1]
      exact hfound
    obtain ⟨hlaid, hframe, hentered⟩ := htrace st.frag.count blk st1 st' hcall (hlink pc blk rfl hfind) hbounded
      (hcount ▸ Nat.lt_succ_self _) hempty
    have hle := hlaid.count
    rw [hcount] at hle
    refine ⟨⟨hlaid.bounded, (Nat.le_succ _).trans hle, hmap ▸ hlaid.map, fun x hx => ?_⟩,
      fun j => if b = j then [.br st.frag.count] else [], fun j hj => ?_,
      fun j hj => ⟨congrArg some (hadd b _ j hj), rfl⟩, fun pc' blk' hpc hfind' => ?_⟩
    · refine (hlaid.code x hx).imp (fun hx => hmap ▸ hx) fun hx => ?_
      refine hx.mono (List.prefix_refl _) (fun _ _ => rfl) fun j hj => ⟨.inr ?_, hj.2⟩
      rcases hj.1 with hj | hj
      · exact (Option.some_inj.mp hj).ge
      · rw [hcount] at hj
        exact (Nat.le_succ _).trans hj
    · rw [hframe j (hcount ▸ Nat.lt_succ_of_lt hj) hj.ne, hblock]
    · cases hpc
      exact ⟨b, st.frag.count, rfl, hentered pc (hfiled pc blk (TraceEnv.find_eq_some hfind).1) hhas, if_pos rfl⟩

theorem getD_of_or {o : Option Builder} {link : Option Word} {entry b : Builder}
    (h : o.or (link.map fun _ => entry) = some b) (hlink : link.isSome = true) : o.getD entry = b := by
  obtain ⟨q, rfl⟩ := Option.isSome_iff_exists.mp hlink
  cases o with
  | none => exact Option.some_inj.mp h
  | some b' => exact Option.some_inj.mp h

/-- Both links are followed, the untaken one first; `own` are the blocks of the code in front of the branches. -/
theorem links_laid (hfiled : env.Filed) {trace : Builder → TraceBlock → Trace → Option Trace}
    (htrace : Lays env root trace) {blk : TraceBlock} {out : Handed} {entry : Builder} {st st1 st' : Trace}
    (huntaken : st.follow env blk.satp trace (out.untaken.or (blk.links.untaken.map fun _ => entry))
      blk.links.untaken = some st1)
    (htaken : st1.follow env blk.satp trace (out.taken.or (blk.links.taken.map fun _ => entry))
      blk.links.taken = some st') (hf : st.frag.Bounded) (own : Builder → Prop)
    (hout : own entry ∧ (∀ b, out.taken = some b → own b) ∧ ∀ b, out.untaken = some b → own b)
    (hown : ∀ b, own b → b < st.frag.count)
    (hlink : ∀ q blk', blk.links.taken = some q ∨ blk.links.untaken = some q → env.find blk.satp q = some blk' →
      Traced env root blk') :
    Laid env root none st st' ∧ ∃ add : Builder → List (Item HostPtr Gep),
      (∀ j < st.frag.count, st'.frag.block j = st.frag.block j ++ add j) ∧ (∀ j, add j ≠ [] → own j) ∧
        LinksAt env blk st' entry (fun j => [] ++ add j) out := by
  -- the builder of a link stands at a block of the code
  have hbuilder {o : Option Builder} {link : Option Word} (ho : ∀ b, o = some b → own b) {b : Builder}
      (hb : o.or (link.map fun _ => entry) = some b) : own b := by
    rcases Option.or_eq_some_iff.mp hb with hb | ⟨-, hb⟩
    · exact ho b hb
    · obtain ⟨-, -, rfl⟩ := Option.map_eq_some_iff.mp hb
      exact hout.1
  obtain ⟨hlaid1, addU, hblock1, hskip1, hlink1⟩ :=
    follow_laid hfiled htrace huntaken hf (fun b hb => hown b (hbuilder hout.2.2 hb)) fun q blk' hq =>
      hlink q blk' (.inr hq)
  obtain ⟨hlaid', addT, hblock', hskip', hlink'⟩ :=
    follow_laid hfiled htrace htaken hlaid1.bounded
      (fun b hb => Nat.lt_of_lt_of_le (hown b (hbuilder hout.2.1 hb)) hlaid1.count) fun q blk' hq =>
      hlink q blk' (.inl hq)
  refine ⟨hlaid1.trans hlaid' fun j hge hlt => ?_, fun j => addU j ++ addT j, fun j hj => ?_, fun j hj => ?_,
    ⟨fun q blk' hq hfind => ?_, fun q blk' hq hfind hne => ?_⟩⟩
  · have hnil : addT j = [] := by
      by_contra hne
      exact absurd (hown j (hbuilder hout.2.1 (hskip' j hne).1)) (Nat.not_lt.mpr hge)
    rw [hblock' j hlt, hnil, List.append_nil]
  · rw [hblock' j (Nat.lt_of_lt_of_le hj hlaid1.count), hblock1 j hj, List.append_assoc]
  · by_cases hnil : addU j = []
    · exact hbuilder hout.2.1 (hskip' j fun hnil' => hj (List.append_eq_nil_iff.mpr ⟨hnil, hnil'⟩)).1
    · exact hbuilder hout.2.2 (hskip1 j hnil).1
  · obtain ⟨b, dest, hb, hdest, hadd⟩ := hlink1 q blk' hq hfind
    refine ⟨dest, hlaid'.map.subset hdest, ?_⟩
    rw [getD_of_or hb (hq ▸ rfl), List.nil_append]
    show (addU b ++ addT b).head? = some (.br dest)
    rw [hadd]
    rfl
  · obtain ⟨b, dest, hb, hdest, hadd⟩ := hlink' q blk' hq hfind
    refine ⟨dest, hdest, ?_⟩
    have hget := getD_of_or hb (hq ▸ rfl)
    have hnil : addU b = [] := by
      by_contra hnonempty
      obtain ⟨hub, hlinked⟩ := hskip1 b hnonempty
      rcases hne with hnone | hne
      · rw [hnone] at hlinked
        cases hlinked
      · exact hne (hget.trans (getD_of_or hub hlinked).symm)
    rw [hget, List.nil_append]
    show (addU b ++ addT b).head? = some (.br dest)
    rw [hnil, List.nil_append, hadd]
    rfl

/-- **A call of the tracer compiles its block and all that it adds to the map**, by induction on the depth of the
calls. -/
theorem traceEbb_laid (hsys : env.system = false) (hfiled : env.Filed)
    (hok : ∀ blk, Traced env root blk → NodesOk blk.irs) (fuel : Nat) : Lays env root (traceEbb env fuel) := by
  induction fuel with
  | zero => exact fun _ _ _ _ h => by cases h
  | succ fuel ih =>
    intro entry blk st st' h htraced hf hentry hempty
    obtain ⟨pc, hpc, ⟨hfound, rfl⟩ | ⟨-, st1, st2, x, tail, hadd, hins, hnodes, htail, hend⟩⟩ := traceEbb_cases h
    · refine ⟨.refl hf, fun _ _ _ => rfl, fun pc' hpc' hhas => ?_⟩
      obtain rfl : pc = pc' := Option.some_inj.mp (hpc.symm.trans hpc')
      rw [hfound] at hhas
      cases hhas
    · have hst2 : st2.frag = st.frag ∧ st2.map = st.map ++ [(pc, entry)] := by
        obtain ⟨y, -, rfl⟩ := Option.map_eq_some_iff.mp hadd
        obtain rfl := Trace.blockMapInsert_eq_some hins
        exact ⟨rfl, rfl⟩
      rw [hst2.1] at hnodes
      obtain ⟨hbounded, hcount, hframe, items, hblock, hat⟩ :=
        traceNodes_at (show (env.t2cEnv blk.satp).system = false from hsys) (hok blk htraced) hf hentry hnodes
      rw [hempty, List.nil_append] at hblock
      subst hblock
      obtain ⟨st3, hst3⟩ : ∃ st3 : Trace, st3 = { st2 with frag := x.2 } := ⟨_, rfl⟩
      have hfrag3 : st3.frag = x.2 := by rw [hst3]
      have hmap3 : st3.map = st.map ++ [(pc, entry)] := by rw [hst3, ← hst2.2]
      have hentered {st4 : Trace} (hmap : st3.map <+: st4.map) (pc' : Word) (hpc' : blk.pc = some pc') :
          (pc', entry) ∈ st4.map := by
        obtain rfl : pc = pc' := Option.some_inj.mp (hpc.symm.trans hpc')
        exact hmap.subset (hmap3 ▸ List.mem_append_right _ List.mem_cons_self)
      rw [← hfrag3] at hbounded hcount hframe hat
      rw [← hst3] at hend
      obtain ⟨hterm, rfl⟩ | ⟨hterm, st4, huntaken, htaken⟩ := hend
      · refine ⟨.enter (.refl hbounded) hcount hmap3 ?_, hframe,
          fun pc' hpc' _ => hentered (List.prefix_refl _) pc' hpc'⟩
        refine ⟨blk, _, _, htraced, hpc, hat.mono fun j hj => ?_, .inl ⟨tail, htail, hterm⟩⟩
        exact ⟨hj.1.imp_left (congrArg some), hj.2⟩
      · obtain ⟨hlaid, add, hadded, hskip, hlinks⟩ :=
          links_laid hfiled ih huntaken htaken hbounded
            (fun j => (j = entry ∨ st.frag.count ≤ j) ∧ j < st3.frag.count) hat.out_own (fun b hb => hb.2)
            fun q blk' hq hfind => htraced.tail ⟨tail, q, htail, hterm, hq, hfind⟩
        refine ⟨.enter hlaid hcount hmap3 ⟨blk, _, _, htraced, hpc, ?_, .inr hlinks⟩, fun j hj hne => ?_,
          fun pc' hpc' _ => hentered hlaid.map pc' hpc'⟩
        · have hat' := hat.add add fun j hj => hadded j hj.2
          rw [← hadded entry hat.out_own.1.2] at hat'
          exact hat'.mono fun j hj => ⟨hj.1.imp_left (congrArg some), Nat.lt_of_lt_of_le hj.2 hlaid.count⟩
        · have hnil : add j = [] := by
            by_contra hadd
            exact (hskip j hadd).1.elim hne fun hge => absurd hj (Nat.not_lt.mpr hge)
          rw [hadded j (Nat.lt_of_lt_of_le hj hcount), hnil, List.append_nil, hframe j hj hne]

end Spec

/-! ## The function -/

/-- A function of which all elements of the map are compiled; it starts with the first of them. -/
structure FunctionAt (env : TraceEnv) (root : TraceBlock) (f : Trace) : Prop where
  start : f.frag.block 0 = [.store (constInt 0 : Value 64) counterPtr, .br 1]
  first : ∀ pc, root.pc = some pc → (pc, 1) ∈ f.map
  code : ∀ x ∈ f.map, ∃ own, Compiled env root f own x

theorem function_compiled {env : TraceEnv} {root : TraceBlock} {f : Trace} (hsys : env.system = false)
    (hfiled : env.Filed) (hok : ∀ blk, Traced env root blk → NodesOk blk.irs) (h : t2cFunction env root = some f) :
    FunctionAt env root f := by
  have hfirst : firstBlock.Bounded := by
    intro b i hi
    rcases List.mem_cons.mp hi with hi | hi
    · cases hi
      exact Nat.two_pos
    · obtain hi := List.mem_singleton.mp hi
      cases hi
      exact Nat.two_pos
  obtain ⟨hlaid, hframe, hentered⟩ := traceEbb_laid hsys hfiled hok (t2cMaxBlocks + 1) 1 root _ f h .refl hfirst
    Nat.one_lt_two rfl
  refine ⟨(hframe 0 Nat.two_pos Nat.zero_ne_one).trans rfl, fun pc hpc => hentered pc hpc rfl, fun x hx => ?_⟩
  exact ⟨_, (hlaid.code x hx).resolve_left List.not_mem_nil⟩

end Rv32emu
