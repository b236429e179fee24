import Rv32emu.JitEmit
import Rv32emu.LlvmGraph
import Rv32emu.T2c

/-!
# The tracer of tier 2

`t2c_trace_ebb` puts the code of a block and of the blocks that can be reached from it over links into one LLVM
function. The handlers of `T2c` are builder programs that start at block 0; here they are placed where `*builder`
stands.

* `TraceBlock`, `TraceEnv` : what is read of a block, and of the process;
* `Trace` : the function under construction, the `set_t` and the `LLVM_block_map`;
* `traceNodes`, `Trace.follow`, `traceEbb` : `t2c_trace_ebb`, cut into its loop, what it does behind a link, and the
  rest; `none` is a failed assertion, a null pointer that is followed, a store behind the end of the map and
  `__UNREACHABLE`;
* `t2cFunction` : the function that `t2c_compile` builds for a block;
* `Trace.follow_cases`, `traceEbb_cases` : all that a call does;
* `t2cFunction_fuel` : the map bounds the depth of the calls.
-/

namespace Rv32emu

open Llvm

/-- What the tracer reads of a block: its nodes, and the `pc` of the blocks that the last of them is linked to. -/
structure TraceBlock where
  irs : List Insn
  links : T2cLinks := {}
  translatable : Bool := true
  satp : Word := 0

def TraceBlock.pc (blk : TraceBlock) : Option Word := blk.irs.head?.map Insn.pc

/-- What a call does not change; `cache` is `cache_get(rv->block_cache, pc, false)`. -/
structure TraceEnv where
  system : Bool
  memBase : BitVec 64
  cache : Word → Option TraceBlock

namespace TraceEnv

variable (env : TraceEnv)

/-- `blk && blk->translatable && blk->satp == block->satp`, with the block at `pc`. -/
def find (satp pc : Word) : Option TraceBlock :=
  (env.cache pc).filter fun blk => blk.translatable && (!env.system || blk.satp == satp)

/-- What the handlers read beside their nodes. -/
def t2cEnv (satp : Word) : T2cEnv := ⟨env.system, env.memBase, fun pc => (env.find satp pc).isSome⟩

end TraceEnv

structure Trace where
  frag : Fragment HostPtr Gep
  set : CodeSet := fun _ => []
  map : List (Word × Builder) := []

def t2cMaxBlocks : Nat := 8152

namespace Trace

variable (st : Trace)

def blockMapInsert (entry : Builder) (pc : Word) : Option Trace :=
  if st.map.length < t2cMaxBlocks then some { st with map := st.map ++ [(pc, entry)] } else none

def blockMapSearch (pc : Word) : Option Builder := (st.map.find? fun e => e.1 == pc).map Prod.snd

/-- `set_has(set, pc)`. -/
def has (system : Bool) (pc : Word) : Option Bool := (setHas { system } st.set (pc.setWidth 64)).toOption

/-- `set_add(set, pc)`. -/
def add (system : Bool) (pc : Word) : Option Trace :=
  ((setAdd { system } st.set (pc.setWidth 64)).toOption).map fun x => { st with set := x.1 }

end Trace

def t2cInsnIsTerminal (system : Bool) : Opcode → Bool
  | .ecall | .ebreak | .jalr | .mret | .cjalr | .cjr | .cebreak => true
  | .sret => system
  | _ => false

/-- The builders of code, where it has been placed; one that is not handed over stays as it was. -/
def Handed.place (handed : Handed) (loc : Builder → Builder) (old : Handed) : Handed where
  taken := (handed.taken.map loc).or old.taken
  untaken := (handed.untaken.map loc).or old.untaken

/-- The loop over the nodes. Only the last of them can be linked. -/
def traceNodes (cfg : T2cEnv) (lk : T2cLinks) (entry : Builder) :
    List Insn → Handed → Fragment HostPtr Gep → Option (Handed × Fragment HostPtr Gep)
  | [], _, _ => none
  | ir :: rest, handed, f =>
    (t2c cfg (if rest.isEmpty then lk else {}) ir {}).bind fun x =>
      let handed := x.1.place (place entry f.count) handed
      if rest.isEmpty then some (handed, f.append entry x.2)
      else traceNodes cfg lk entry rest handed (f.append entry x.2)

def Trace.follow (env : TraceEnv) (satp : Word) (trace : Builder → TraceBlock → Trace → Option Trace)
    (builder : Option Builder) (link : Option Word) (st : Trace) : Option Trace :=
  link.elim (some st) fun pc => do
    let b ← builder
    if ← st.has env.system pc then
      let dest ← st.blockMapSearch pc
      return { st with frag := st.frag.buildBr b dest }
    else
      (env.find satp pc).elim (some st) fun blk =>
        let dest := st.frag.count
        trace dest blk { st with frag := ({ st.frag with count := dest + 1 } : Fragment HostPtr Gep).buildBr b dest }

/-- `t2c_trace_ebb`. Every call but the innermost has filled an element of the map. -/
def traceEbb (env : TraceEnv) : Nat → Builder → TraceBlock → Trace → Option Trace
  | 0, _, _, _ => none
  | fuel + 1, entry, blk, st => do
    let pc ← blk.pc
    if ← st.has env.system pc then return st
    else
      let st ← (← st.add env.system pc).blockMapInsert entry pc
      let x ← traceNodes (env.t2cEnv blk.satp) blk.links entry blk.irs {} st.frag
      let st := { st with frag := x.2 }
      let tail ← blk.irs.getLast?
      if t2cInsnIsTerminal env.system tail.opcode then return st
      else
        let tk := x.1.taken.or (blk.links.taken.map fun _ => entry)
        let utk := x.1.untaken.or (blk.links.untaken.map fun _ => entry)
        let st ← st.follow env blk.satp (traceEbb env fuel) utk blk.links.untaken
        st.follow env blk.satp (traceEbb env fuel) tk blk.links.taken

/-- `first_block`, which clears the counter and goes on to `entry`. -/
def firstBlock : Fragment HostPtr Gep where
  count := 2
  log := [(0, .br 1), (0, .store (constInt 0 : Value 64) counterPtr)]

def t2cFunction (env : TraceEnv) (blk : TraceBlock) : Option Trace :=
  traceEbb env (t2cMaxBlocks + 1) 1 blk { frag := firstBlock }

/-! ## What a call does -/

section Calls

variable {env : TraceEnv} {trace trace' : Builder → TraceBlock → Trace → Option Trace} {satp : Word}
  {builder : Option Builder} {link : Option Word} {st st' : Trace}

/-- Behind a link there is no block, or a branch to one that has been traced, or a call for a new one. -/
theorem Trace.follow_cases (h : st.follow env satp trace builder link = some st') :
    (st' = st ∧ ∀ pc, link = some pc → env.find satp pc = none) ∨
      ∃ pc b, link = some pc ∧ builder = some b ∧
        ((st.has env.system pc = some true ∧ ∃ dest, st.blockMapSearch pc = some dest ∧
            st' = { st with frag := st.frag.buildBr b dest }) ∨
          st.has env.system pc = some false ∧ ∃ blk, env.find satp pc = some blk ∧
            trace st.frag.count blk { st with
              frag := ({ st.frag with count := st.frag.count + 1 } : Fragment HostPtr Gep).buildBr b st.frag.count } =
                some st') := by
  cases link with
  | none =>
    cases h
    exact .inl ⟨rfl, fun _ hpc => by cases hpc⟩
  | some pc =>
    obtain ⟨b, hb, h⟩ := Option.bind_eq_some_iff.mp h
    obtain ⟨found, hfound, h⟩ := Option.bind_eq_some_iff.mp h
    cases found with
    | true =>
      obtain ⟨dest, hdest, h⟩ := Option.bind_eq_some_iff.mp h
      cases h
      exact .inr ⟨pc, b, rfl, hb, .inl ⟨hfound, dest, hdest, rfl⟩⟩
    | false =>
      cases hfind : env.find satp pc with
      | none =>
        simp only [hfind, Bool.false_eq_true, if_false, Option.elim_none] at h
        cases h
        refine .inl ⟨rfl, fun pc' hpc => ?_⟩
        cases hpc
        exact hfind
      | some blk =>
        simp only [hfind, Bool.false_eq_true, if_false, Option.elim_some] at h
        exact .inr ⟨pc, b, rfl, hb, .inr ⟨hfound, blk, hfind, h⟩⟩

/-- A call finds its block in the set, or traces its nodes, and the links behind a tail that is not terminal. -/
theorem traceEbb_cases {fuel : Nat} {entry : Builder} {blk : TraceBlock}
    (h : traceEbb env (fuel + 1) entry blk st = some st') :
    ∃ pc, blk.pc = some pc ∧
      ((st.has env.system pc = some true ∧ st' = st) ∨
        st.has env.system pc = some false ∧ ∃ st1 st2 x tail, st.add env.system pc = some st1 ∧
          st1.blockMapInsert entry pc = some st2 ∧
          traceNodes (env.t2cEnv blk.satp) blk.links entry blk.irs {} st2.frag = some x ∧
          blk.irs.getLast? = some tail ∧
          ((t2cInsnIsTerminal env.system tail.opcode = true ∧ st' = { st2 with frag := x.2 }) ∨
            t2cInsnIsTerminal env.system tail.opcode = false ∧ ∃ st3,
              ({ st2 with frag := x.2 } : Trace).follow env blk.satp (traceEbb env fuel)
                (x.1.untaken.or (blk.links.untaken.map fun _ => entry)) blk.links.untaken = some st3 ∧
              st3.follow env blk.satp (traceEbb env fuel) (x.1.taken.or (blk.links.taken.map fun _ => entry))
                blk.links.taken = some st')) := by
  rw [traceEbb] at h
  obtain ⟨pc, hpc, h⟩ := Option.bind_eq_some_iff.mp h
  obtain ⟨found, hfound, h⟩ := Option.bind_eq_some_iff.mp h
  refine ⟨pc, hpc, ?_⟩
  cases found with
  | true =>
    cases h
    exact .inl ⟨hfound, rfl⟩
  | false =>
    obtain ⟨st1, hadd, h⟩ := Option.bind_eq_some_iff.mp h
    obtain ⟨st2, hins, h⟩ := Option.bind_eq_some_iff.mp h
    obtain ⟨x, hnodes, h⟩ := Option.bind_eq_some_iff.mp h
    obtain ⟨tail, htail, h⟩ := Option.bind_eq_some_iff.mp h
    refine .inr ⟨hfound, st1, st2, x, tail, hadd, hins, hnodes, htail, ?_⟩
    split_ifs at h with hterm
    · cases h
      exact .inl ⟨hterm, rfl⟩
    · obtain ⟨st3, huntaken, htaken⟩ := Option.bind_eq_some_iff.mp h
      exact .inr ⟨Bool.eq_false_iff.mpr hterm, st3, huntaken, htaken⟩

/-! ## The depth of the calls -/

/-- A new block takes an element of the map, of which there are `MAX_BLOCKS`. -/
theorem Trace.insert_length {system : Bool} {st1 : Trace} {pc : Word} {entry : Builder}
    (hadd : st.add system pc = some st1) (hins : st1.blockMapInsert entry pc = some st') :
    st.map.length < t2cMaxBlocks ∧ st'.map.length = st.map.length + 1 := by
  obtain ⟨y, -, rfl⟩ := Option.map_eq_some_iff.mp hadd
  unfold Trace.blockMapInsert at hins
  split_ifs at hins with hroom
  cases hins
  exact ⟨hroom, List.length_append⟩

theorem follow_length (htrace : ∀ e blk st st', trace e blk st = some st' → st.map.length ≤ st'.map.length)
    (h : st.follow env satp trace builder link = some st') : st.map.length ≤ st'.map.length := by
  obtain ⟨rfl, -⟩ | ⟨pc, b, -, -, ⟨-, dest, -, rfl⟩ | ⟨-, blk, -, htraced⟩⟩ := Trace.follow_cases h
  · exact Nat.le_refl _
  · exact Nat.le_refl _
  · have hle := htrace _ _ _ _ htraced
    exact hle

theorem follow_congr (htrace : ∀ e blk st1, st1.map = st.map → trace e blk st1 = trace' e blk st1) :
    st.follow env satp trace builder link = st.follow env satp trace' builder link := by
  simp only [Trace.follow, htrace]

/-- The map only grows, by induction on the depth of the calls. -/
theorem traceEbb_length (fuel : Nat) (entry : Builder) (blk : TraceBlock) (st st' : Trace)
    (h : traceEbb env fuel entry blk st = some st') : st.map.length ≤ st'.map.length := by
  induction fuel generalizing entry blk st st' with
  | zero => cases h
  | succ fuel ih =>
    obtain ⟨pc, -, ⟨-, rfl⟩ | ⟨-, st1, st2, x, tail, hadd, hins, -, -, hend⟩⟩ := traceEbb_cases h
    · exact Nat.le_refl _
    · have hle : st.map.length ≤ st2.map.length := (Trace.insert_length hadd hins).2 ▸ Nat.le_succ _
      obtain ⟨-, rfl⟩ | ⟨-, st3, huntaken, htaken⟩ := hend
      · exact hle
      · have huntaken_le := follow_length ih huntaken
        exact (hle.trans huntaken_le).trans (follow_length ih htaken)

/-- **The elements of the map that are left bound the depth of the calls**: more fuel than that changes nothing. -/
theorem traceEbb_fuel (fuel fuel' : Nat) (entry : Builder) (blk : TraceBlock) (st : Trace)
    (h : t2cMaxBlocks - st.map.length < fuel) (h' : t2cMaxBlocks - st.map.length < fuel') :
    traceEbb env fuel entry blk st = traceEbb env fuel' entry blk st := by
  induction fuel generalizing fuel' entry blk st with
  | zero => exact absurd h (Nat.not_lt_zero _)
  | succ fuel ih =>
    cases fuel' with
    | zero => exact absurd h' (Nat.not_lt_zero _)
    | succ fuel' =>
      rw [traceEbb, traceEbb]
      refine Option.bind_congr fun pc _ => Option.bind_congr fun found _ => ?_
      cases found with
      | true => rfl
      | false =>
        refine Option.bind_congr fun st1 hadd => Option.bind_congr fun st2 hins => Option.bind_congr fun x _ =>
          Option.bind_congr fun tail _ => ?_
        obtain ⟨hroom, hlen⟩ := Trace.insert_length hadd hins
        -- the calls behind the links have one element less
        have hless (builder : Option Builder) (link : Option Word) (st3 : Trace)
            (hle : st2.map.length ≤ st3.map.length) : st3.follow env blk.satp (traceEbb env fuel) builder link =
              st3.follow env blk.satp (traceEbb env fuel') builder link :=
          follow_congr fun e blk' st4 hmap =>
            ih fuel' e blk' st4 (by rw [hmap]; omega) (by rw [hmap]; omega)
        split_ifs with hterm
        · rfl
        · dsimp only
          rw [hless _ _ { st2 with frag := x.2 } (Nat.le_refl _)]
          refine Option.bind_congr fun st4 huntaken => hless _ _ st4 ?_
          have huntaken_le := follow_length (traceEbb_length fuel') huntaken
          exact huntaken_le

theorem t2cFunction_fuel {fuel : Nat} (hfuel : t2cMaxBlocks < fuel) (blk : TraceBlock) :
    t2cFunction env blk = traceEbb env fuel 1 blk { frag := firstBlock } :=
  traceEbb_fuel _ fuel 1 blk _ (Nat.lt_succ_self _) hfuel

end Calls

end Rv32emu
