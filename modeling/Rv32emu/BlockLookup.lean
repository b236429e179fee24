import Rv32emu.BlockHistory
import Rv32emu.BlockTable

/-!
# Block lookup over whole runs

Every step of an engine is one test, one dispatch or one handler, and what it does to the block map is
a list of operations. Carried out on the hash table, these lists give at every moment of a run the table
behind the engine's block map.

* `Conf.mapOps`, `SysConf.mapOps` : the operations of a step, in order;
* `Conf.step_performs`, `SysConf.step_performs` : on the table they do what the step does to the map;
* `InsertsNew` : a step inserts no second block for an address. The user-mode engine inserts a block
  only where it has just found none (`Conf.insertsNew`); `block_translate` of a `SYSTEM` build may start
  over at another address after a page fault, without a new lookup;
* `runs_agree` : runs of steps that insert new blocks only.
-/

namespace Rv32emu

/-! ## The operations of a step -/

/-- The operations of `LOOKUP_OR_UPDATE_BRANCH_HISTORY_TABLE` with the entry of the table for `pc`. -/
def historyOps (entry : Word × Option Ref) (pc : Word) : List MapOp :=
  match (if entry.1 = pc then entry.2 else none) with
  | some _ => []
  | none => [.find pc]

/-- The load test of `block_find_or_translate`. -/
def loadOps {B : Type} (e : BlockMap B) : List MapOp := if mapFull e.size then [.clear] else []

def evict {B : Type} (e : BlockMap B) : BlockMap B :=
  if mapFull e.size then { e.blockMapClear with prev := none } else e

namespace Conf

/-- `prev` is looked up again. -/
def refreshOps (c : Conf) : List MapOp :=
  match c.eng.prev with
  | none => []
  | some p =>
    if (c.eng.block p).any fun b => b.pcStart = c.cpu.lastPc then [] else [.lookup c.cpu.lastPc]

/-- The end of `block_find_or_translate`, where nothing has been found in `e`. -/
def insertOps (env : Env) (host : Host) (e : Engine) (s : Cpu) : List MapOp :=
  if !host.blockAlloc e.fresh then []
  else
    let t := blockTranslate env.extC s.ifetch s.PC
    let (s', _) := raiseIllegal env s t.2.2
    if t.2.2 = .abort ∨ (t.1 ≠ [] ∧ s'.X regZero ≠ 0) then []
    else if t.1 = [] then []
    else [.insert s.PC]

/-- `block_find_or_translate`. -/
def translateOps (env : Env) (host : Host) (e : Engine) (s : Cpu) : List MapOp :=
  .lookup s.PC :: match e.blockLookupOrFind env.extC s.PC with
    | (some _, _) => []
    | (none, e) => loadOps e ++ insertOps env host (evict e) s

/-- The operations of one step of `rv_step`. -/
def mapOps (env : Env) (host : Host) (c : Conf) : List MapOp :=
  match c.loc with
  | .head =>
    if c.cpu.csr.cycle < c.target ∧ c.cpu.halt = false then
      c.refreshOps ++ translateOps env host (c.refreshPrev env) c.cpu
    else []
  | .run _ cur (ir :: rest) cycle pc =>
    let lk : Links := if rest.isEmpty then (c.eng.block cur).elim {} Block.links else {}
    match impl env ir lk rest.isEmpty cycle pc c.cpu with
    | .lookup _ pc _ =>
      historyOps ((c.eng.block cur).elim (0, none) fun b => b.branchTable ((pc >>> 2).setWidth 4)) pc
    | _ => []
  | _ => []

end Conf

/-- What the nested interpreter has done to the block map. -/
def Sys.clearOps (s : Sys) : List MapOp := if s.blockMapCleared then [.clear] else []

namespace SysConf

def refreshOps (c : SysConf) : List MapOp :=
  match c.eng.prev with
  | none => []
  | some p =>
    match c.eng.block p with
    | none => []
    | some b => if b.pcStart = c.sys.cpu.lastPc then [] else [.lookup c.sys.cpu.lastPc]

/-- The end of `block_find_or_translate`. The block starts where `block_translate` has last started. -/
def insertOps (env : SysEnv) (host : SysHost) (e : BlockMap SysBlock) (s : Sys) : List MapOp :=
  if !host.blockAlloc e.fresh then []
  else match sysBlockTranslate env (sysRaise env host.fuel) host.fuel s with
    | none => []
    | some (d, s) =>
      s.clearOps ++ if d.irs = [] then [] else if s.cpu.X regZero ≠ 0 then [] else [.insert d.pcStart]

/-- `block_find_or_translate`. -/
def translateOps (env : SysEnv) (host : SysHost) (c : SysConf) : List MapOp :=
  .lookup c.sys.cpu.PC :: match c.eng.blockLookupOrFind env.extC c.sys.cpu.PC with
    | (some _, _) => []
    | (none, e) => loadOps e ++ insertOps env host (evict e) c.sys

def interruptOps (env : SysEnv) (host : SysHost) (c : SysConf) : List MapOp :=
  if env.elfLoader then []
  else match rvCheckInterrupt env (sysRaise env host.fuel) c.sys with
    | none => []
    | some r => r.2.clearOps

/-- The trap handler that runs when no block could be translated. -/
def noBlockOps (env : SysEnv) (host : SysHost) (c : SysConf) : List MapOp :=
  if c.sys.isTrapped then
    match sysTrapHandler env host.fuel c.sys with
    | none => []
    | some (_, s) => s.clearOps
  else []

/-- An iteration up to the block that is to run next; nothing if the process ends on the way. -/
def dispatchOps (env : SysEnv) (host : SysHost) (c : SysConf) : List MapOp :=
  let ops : Option (List MapOp) := do
    let c1 ← c.checkInterrupt env host
    let e ← c1.refreshPrev env
    let (r, c2) ← findOrTranslate env host { c1 with eng := e }
    return c.interruptOps env host ++ c1.refreshOps ++ translateOps env host { c1 with eng := e } ++
      if r.isNone then c2.noBlockOps env host else []
  ops.getD []

def handlerOps (env : SysEnv) (host : SysHost) (c : SysConf) (cur : Ref) (rest : List Insn)
    (cycle : BitVec 64) (pc : Word) : List MapOp :=
  match rest with
  | [] => []
  | ir :: rest =>
    let lk : Links := if rest.isEmpty then (c.eng.block cur).elim {} fun b => b.links else {}
    match sysImpl env (sysRaise env host.fuel) ir lk rest.isEmpty cycle pc c.sys with
    | none => []
    | some (ctl, s) =>
      s.clearOps ++ match ctl, (c.settle s).eng.block cur with
        | .lookup _ pc, some b => historyOps (b.branchTable ((pc >>> 2).setWidth 4)) pc
        | _, _ => []

/-- The operations of one step of `rv_step`. -/
def mapOps (env : SysEnv) (host : SysHost) (c : SysConf) : List MapOp :=
  match c.loc with
  | .head =>
    if c.sys.cpu.csr.cycle < c.target ∧ c.sys.cpu.halt = false then c.dispatchOps env host else []
  | .run _ cur rest cycle pc => c.handlerOps env host cur rest cycle pc
  | _ => []

end SysConf

/-! ## The steps perform their operations -/

section Performs

variable {B : Type} {fuel : Nat} {extC : Bool}

theorem performs_modify (e : BlockMap B) (r : Ref) (f : B → B) : Performs fuel extC [] e (e.modify r f) :=
  .same rfl rfl rfl rfl

theorem performs_prev (e : BlockMap B) (p : Option Ref) : Performs fuel extC [] e { e with prev := p } :=
  .same rfl rfl rfl rfl

theorem Performs.then_same {ops : List MapOp} {e e' e'' : BlockMap B} (h : Performs fuel extC ops e e')
    (h' : Performs fuel extC [] e' e'') : Performs fuel extC ops e e'' := by
  have htrans := h.trans h'
  rwa [List.append_nil] at htrans

theorem mapFull_zero : mapFull 0 = false := by decide

theorem performs_load (hfuel : 1024 ≤ fuel) (e : BlockMap B) :
    Performs fuel extC (loadOps e) e (evict e) ∧ mapFull (evict e).size = false := by
  unfold loadOps evict
  split_ifs with hfull
  · exact ⟨(Performs.clear hfuel e).then_same (performs_prev _ none), mapFull_zero⟩
  · exact ⟨.refl e, by simpa using hfull⟩

theorem performs_history (hfuel : 1024 ≤ fuel) (entry : Word × Option Ref) (pc : Word) (e : BlockMap B) :
    Performs fuel extC (historyOps entry pc) e e := by
  unfold historyOps
  split
  · exact .refl e
  · exact .find hfuel pc e

end Performs

namespace Conf

variable {env : Env} {host : Host} {fuel : Nat}

theorem refresh_performs (hfuel : 1024 ≤ fuel) (c : Conf) :
    Performs fuel env.extC c.refreshOps c.eng (c.refreshPrev env) := by
  unfold refreshOps refreshPrev
  cases c.eng.prev with
  | none => exact .refl _
  | some p =>
    simp only
    split_ifs
    · exact .refl _
    · exact (Performs.lookup hfuel c.cpu.lastPc c.eng).then_same (performs_prev _ _)

theorem insert_performs (hfuel : 1024 ≤ fuel) {e : Engine} (hroom : mapFull e.size = false) (s : Cpu) :
    Performs fuel env.extC (insertOps env host e s) e
      (if !host.blockAlloc e.fresh then (none, e, s, [])
      else
        let t := blockTranslate env.extC s.ifetch s.PC
        let (s', events) := raiseIllegal env s t.2.2
        if t.2.2 = .abort ∨ (t.1 ≠ [] ∧ s'.X regZero ≠ 0) then
          (none, e, { s' with aborted := true }, events)
        else if t.1 = [] then (none, e, s', events)
        else
          let b : Block :=
            { pcStart := s.PC, pageTerminated := t.2.2 = .page,
              irs := matchPattern (host.fuseAlloc e.fresh) (optimizeConstant t.1) }
          (some e.fresh, e.blockInsert env.extC b.pcStart b, s', events) :
        Option Ref × Engine × Cpu × List Event).2.1 := by
  unfold insertOps
  simp only
  split_ifs
  · exact .refl e
  · exact .refl e
  · exact .refl e
  · exact .insert hfuel hroom s.PC _

theorem translate_performs (hfuel : 1024 ≤ fuel) (e : Engine) (s : Cpu) :
    Performs fuel env.extC (translateOps env host e s) e (blockFindOrTranslate env host e s).2.1 := by
  have hlook : Performs fuel env.extC [.lookup s.PC] e (e.blockLookupOrFind env.extC s.PC).2 :=
    .lookup hfuel s.PC e
  unfold translateOps blockFindOrTranslate
  rcases hfind : e.blockLookupOrFind env.extC s.PC with ⟨_ | r, e'⟩
  · rw [hfind] at hlook
    have ⟨(hload : Performs fuel env.extC _ _ _), hroom⟩ := performs_load hfuel e'
    exact hlook.trans (hload.trans (insert_performs hfuel hroom s))
  · rw [hfind] at hlook
    exact hlook

theorem handlerReturned_performs (c : Conf) (disp : Ref) (ok : Bool) :
    Performs fuel env.extC [] c.eng (c.handlerReturned disp ok).eng := by
  unfold handlerReturned
  split
  · exact performs_prev _ _
  · exact performs_prev _ _

theorem lookupBranch_performs (hfuel : 1024 ≤ fuel) (c : Conf) (disp cur : Ref) (cycle : BitVec 64)
    (pc : Word) :
    Performs fuel env.extC
      (historyOps ((c.eng.block cur).elim (0, none) fun b => b.branchTable ((pc >>> 2).setWidth 4)) pc)
      c.eng (c.lookupBranch disp cur cycle pc).1.eng := by
  refine (performs_history hfuel _ pc c.eng).then_same ?_
  unfold lookupBranch
  simp only
  split
  · rw [enter_eng]
    exact .refl _
  · rw [enter_eng]
    exact performs_modify _ _ _
  · exact handlerReturned_performs _ disp true

/-- **A step does to the table what it does to the block map.** -/
theorem step_performs (hfuel : 1024 ≤ fuel) (c : Conf) :
    Performs fuel env.extC (c.mapOps env host) c.eng (c.step env host).1.eng := by
  unfold mapOps step
  split
  · rename_i hloc
    rw [hloc]
    simp only
    split_ifs
    · have htranslate : Performs fuel env.extC (translateOps env host (c.refreshPrev env) c.cpu)
          (c.refreshPrev env) (blockFindOrTranslate env host (c.refreshPrev env) c.cpu).2.1 :=
        translate_performs hfuel (c.refreshPrev env) c.cpu
      have hfind := (refresh_performs hfuel c).trans htranslate
      refine hfind.then_same ?_
      unfold dispatch
      rcases blockFindOrTranslate env host (c.refreshPrev env) c.cpu with ⟨_ | r, e, s, events⟩
      · simp only
        split_ifs
        · exact .refl _
        · exact .refl _
      · simp only
        split
        · exact .refl _
        · cases e.prev with
          | none => exact .refl _
          | some p => exact performs_modify _ _ _
    · exact .refl _
  · rename_i disp cur ir rest cycle pc hloc
    rw [hloc]
    simp only [stepRun]
    cases impl env ir (if rest.isEmpty = true then (c.eng.block cur).elim {} Block.links else {})
        rest.isEmpty cycle pc c.cpu with
    | next cycle pc s => exact .refl _
    | enter r cycle pc s =>
      simp only [enter_eng]
      exact .refl _
    | lookup cycle pc s => exact lookupBranch_performs hfuel { c with cpu := s } disp cur cycle pc
    | ret ok s => exact handlerReturned_performs { c with cpu := s } disp ok
    | trap t s =>
      simp only
      split_ifs
      · exact .refl _
      · exact handlerReturned_performs { c with cpu := (Trap.take env t s).1 } disp (Trap.take env t s).2
  · rename_i hhead hrun
    cases hloc : c.loc with
    | left => exact .refl _
    | head => exact absurd hloc hhead
    | run disp cur rest cycle pc =>
      cases rest with
      | nil => exact .refl _
      | cons ir rest => exact absurd hloc (hrun disp cur ir rest cycle pc)
    | dead => exact .refl _

end Conf

namespace SysConf

variable {env : SysEnv} {host : SysHost} {fuel : Nat}

theorem settle_performs (hfuel : 1024 ≤ fuel) (c : SysConf) (s : Sys) :
    Performs fuel env.extC s.clearOps c.eng (c.settle s).eng := by
  have hprev : ∀ e : BlockMap SysBlock,
      Performs fuel env.extC [] e (if s.prevNull then { e with prev := none } else e) := by
    intro e
    split_ifs
    · exact performs_prev e none
    · exact .refl e
  unfold Sys.clearOps settle
  simp only
  split
  · exact (Performs.clear hfuel c.eng).then_same (hprev _)
  · exact hprev _

theorem mapFull_settle {c : SysConf} (h : mapFull c.eng.size = false) (s : Sys) :
    mapFull (c.settle s).eng.size = false := by
  unfold settle
  simp only
  split_ifs
  · exact mapFull_zero
  · exact h
  · exact mapFull_zero
  · exact h

theorem refresh_performs (hfuel : 1024 ≤ fuel) {c : SysConf} {e : BlockMap SysBlock}
    (h : c.refreshPrev env = some e) : Performs fuel env.extC c.refreshOps c.eng e := by
  unfold refreshPrev at h
  unfold refreshOps
  cases hprev : c.eng.prev with
  | none =>
    simp only [hprev] at h
    rw [← Option.some.inj h]
    exact .refl _
  | some p =>
    simp only [hprev] at h
    cases hb : c.eng.block p with
    | none =>
      rw [hb] at h
      cases h
    | some b =>
      simp only [hb] at h ⊢
      split_ifs at h ⊢
      · rw [← Option.some.inj h]
        exact .refl _
      · rw [← Option.some.inj h]
        exact (Performs.lookup hfuel c.sys.cpu.lastPc c.eng).then_same (performs_prev _ _)

theorem interrupt_performs (hfuel : 1024 ≤ fuel) {c c' : SysConf} (h : c.checkInterrupt env host = some c') :
    Performs fuel env.extC (c.interruptOps env host) c.eng c'.eng := by
  unfold checkInterrupt at h
  unfold interruptOps
  split_ifs at h ⊢
  · rw [← Option.some.inj h]
    exact .refl _
  · obtain ⟨r, hr, rfl⟩ := Option.map_eq_some_iff.mp h
    rw [hr]
    exact settle_performs hfuel c r.2

theorem noBlock_performs (hfuel : 1024 ≤ fuel) (c : SysConf) :
    Performs fuel env.extC (c.noBlockOps env host) c.eng (c.noBlock env host).eng := by
  unfold noBlockOps noBlock
  split_ifs
  · cases sysTrapHandler env host.fuel c.sys with
    | none => exact .refl _
    | some r => exact (settle_performs hfuel c r.2).then_same (performs_prev _ none)
  · exact .refl _

/-- `block_find_or_translate` where no block is found. -/
theorem findOrTranslate_miss {c : SysConf} {e : BlockMap SysBlock}
    (hfind : c.eng.blockLookupOrFind env.extC c.sys.cpu.PC = (none, e)) :
    c.findOrTranslate env host =
      if !host.blockAlloc (evict e).fresh then some (none, { c with eng := evict e })
      else match sysBlockTranslate env (sysRaise env host.fuel) host.fuel c.sys with
        | none => none
        | some (d, s) =>
          if d.irs = [] then some (none, { c with eng := evict e }.settle s)
          else if s.cpu.X regZero ≠ 0 then none
          else
            let c := { c with eng := evict e }.settle s
            let b := SysBlock.ofSegs d.pcStart d.pcEnd d.pageTerminated
              (optimize env (host.fuseAlloc (evict e).fresh) d.irs)
            some (some c.eng.fresh, { c with eng := c.eng.blockInsert env.extC d.pcStart b }) := by
  unfold findOrTranslate
  rw [hfind]
  rfl

/-- The result of `block_find_or_translate`, if the process goes on. -/
theorem translate_performs (hfuel : 1024 ≤ fuel) {c c' : SysConf} {r : Option Ref}
    (h : c.findOrTranslate env host = some (r, c')) :
    Performs fuel env.extC (c.translateOps env host) c.eng c'.eng := by
  have hlook : Performs fuel env.extC [.lookup c.sys.cpu.PC] c.eng
      (c.eng.blockLookupOrFind env.extC c.sys.cpu.PC).2 := .lookup hfuel c.sys.cpu.PC c.eng
  unfold translateOps
  rcases hfind : c.eng.blockLookupOrFind env.extC c.sys.cpu.PC with ⟨_ | q, e⟩
  · rw [findOrTranslate_miss hfind] at h
    rw [hfind] at hlook
    have ⟨(hload : Performs fuel env.extC _ _ _), hroom⟩ := performs_load hfuel e
    refine hlook.trans (hload.trans ?_)
    unfold insertOps
    split_ifs at h ⊢
    · cases h
      exact .refl _
    · cases htr : sysBlockTranslate env (sysRaise env host.fuel) host.fuel c.sys with
      | none =>
        rw [htr] at h
        cases h
      | some d =>
        obtain ⟨d, s⟩ := d
        rw [htr] at h
        have hsettle : Performs fuel env.extC s.clearOps (evict e) ({ c with eng := evict e }.settle s).eng :=
          settle_performs hfuel { c with eng := evict e } s
        refine hsettle.trans ?_
        simp only at h
        split_ifs at h ⊢
        · cases h
          exact .refl _
        · cases h
          exact .insert hfuel (mapFull_settle (c := { c with eng := evict e }) hroom s) d.pcStart _
  · unfold findOrTranslate at h
    rw [hfind] at hlook h
    refine hlook.then_same ?_
    cases h
    simp only
    split_ifs
    · exact performs_modify _ _ _
    · exact .refl _

theorem handlerReturned_performs (c : SysConf) (disp : Ref) (ok : Bool) :
    Performs fuel env.extC [] c.eng (c.handlerReturned disp ok).eng := by
  unfold handlerReturned
  split
  · exact performs_prev _ _
  · exact performs_prev _ _

theorem lookupBranch_performs (hfuel : 1024 ≤ fuel) {c : SysConf} {cur : Ref} {b : SysBlock}
    (hb : c.eng.block cur = some b) (disp : Ref) (ir : Insn) (cycle : BitVec 64) (pc : Word) :
    Performs fuel env.extC (historyOps (b.branchTable ((pc >>> 2).setWidth 4)) pc) c.eng
      (c.lookupBranch disp cur ir cycle pc).eng := by
  refine (performs_history hfuel _ pc c.eng).then_same ?_
  unfold lookupBranch
  simp only [hb]
  split
  · rw [enter_eng]
    exact .refl _
  · rw [enter_eng]
    exact performs_modify _ _ _
  · exact handlerReturned_performs { c with sys := _ } disp true

theorem linkAndRun_performs (c : SysConf) (r : Ref) : Performs fuel env.extC [] c.eng (c.linkAndRun r).eng := by
  unfold linkAndRun
  split
  · exact .refl _
  · cases c.eng.prev with
    | none => exact .refl _
    | some p => exact performs_modify _ _ _

theorem dispatch_performs (hfuel : 1024 ≤ fuel) (c : SysConf) :
    Performs fuel env.extC (c.dispatchOps env host) c.eng (c.dispatch env host).eng := by
  unfold dispatchOps dispatch nextBlock
  cases h1 : c.checkInterrupt env host with
  | none => exact .refl _
  | some c1 =>
    have hint := interrupt_performs hfuel h1
    simp only [Option.bind_eq_bind, Option.bind_some]
    cases h2 : c1.refreshPrev env with
    | none => exact .refl _
    | some e =>
      have hrefresh := refresh_performs hfuel h2
      simp only [Option.bind_some]
      cases h3 : findOrTranslate env host { c1 with eng := e } with
      | none => exact .refl _
      | some rc =>
        obtain ⟨r, c2⟩ := rc
        have hfound := (hint.trans hrefresh).trans (translate_performs hfuel h3)
        cases r with
        | none => exact hfound.trans (noBlock_performs hfuel c2)
        | some r =>
          simp only [Option.bind_some, Option.isNone_some, Bool.false_eq_true, if_false, List.append_nil,
            Option.pure_def, Option.getD_some]
          exact hfound.then_same (linkAndRun_performs c2 r)

theorem handler_performs (hfuel : 1024 ≤ fuel) (c : SysConf) (disp cur : Ref) (rest : List Insn)
    (cycle : BitVec 64) (pc : Word) :
    Performs fuel env.extC (c.handlerOps env host cur rest cycle pc) c.eng
      (c.stepRun env host disp cur rest cycle pc).1.eng := by
  unfold handlerOps stepRun
  cases rest with
  | nil => exact .refl _
  | cons ir rest =>
    simp only
    generalize (if rest.isEmpty = true then _ else _ : Links) = lk
    cases sysImpl env (sysRaise env host.fuel) ir lk rest.isEmpty cycle pc c.sys with
    | none => exact .refl _
    | some rs =>
      obtain ⟨ctl, s⟩ := rs
      refine (settle_performs hfuel c s).trans ?_
      cases ctl with
      | signal => exact handlerReturned_performs _ disp true
      | ret ok => exact handlerReturned_performs _ disp ok
      | next cycle pc =>
        simp only
        split_ifs
        · exact .refl _
        · exact .refl _
      | enter r cycle pc =>
        simp only
        split_ifs
        · exact .refl _
        · rw [enter_eng]
          exact .refl _
      | lookup cycle pc =>
        simp only
        cases hb : (c.settle s).eng.block cur with
        | none =>
          simp only [Option.isNone_none, if_true]
          exact .refl _
        | some b =>
          simp only [Option.isNone_some, Bool.false_eq_true, if_false]
          exact lookupBranch_performs hfuel hb disp ir cycle pc

/-- **A step does to the table what it does to the block map.** -/
theorem step_performs (hfuel : 1024 ≤ fuel) (c : SysConf) :
    Performs fuel env.extC (c.mapOps env host) c.eng (c.step env host).1.eng := by
  unfold mapOps step
  cases c.loc with
  | left => exact .refl _
  | head =>
    simp only
    split_ifs
    · exact dispatch_performs hfuel c
    · exact .refl _
  | run disp cur rest cycle pc => exact handler_performs hfuel c disp cur rest cycle pc
  | dead => exact .refl _

end SysConf

/-! ## Insertions -/

def NoInsert (ops : List MapOp) : Prop := ∀ pc, MapOp.insert pc ∉ ops

/-- At most one block is inserted, and nothing follows. -/
def InsertLast (ops : List MapOp) : Prop :=
  ∃ pre last, ops = pre ++ last ∧ NoInsert pre ∧ (last = [] ∨ ∃ pc, last = [.insert pc])

/-- No block is inserted for an address that has one. -/
def InsertsNew {B : Type} (ops : List MapOp) (e : BlockMap B) : Prop :=
  ∀ pc, .insert pc ∈ ops → .clear ∈ ops ∨ e.index pc = none

section Shape

variable {ops ops' : List MapOp}

theorem noInsert_nil : NoInsert [] := fun _ h => nomatch h

theorem NoInsert.append (h : NoInsert ops) (h' : NoInsert ops') : NoInsert (ops ++ ops') := by
  intro pc hmem
  obtain hmem | hmem := List.mem_append.mp hmem
  · exact h pc hmem
  · exact h' pc hmem

theorem NoInsert.last (h : NoInsert ops) : InsertLast ops := ⟨ops, [], (List.append_nil _).symm, h, .inl rfl⟩

theorem NoInsert.append_last (h : NoInsert ops) (h' : InsertLast ops') : InsertLast (ops ++ ops') := by
  obtain ⟨pre, last, rfl, hpre, hlast⟩ := h'
  exact ⟨ops ++ pre, last, (List.append_assoc _ _ _).symm, h.append hpre, hlast⟩

theorem insertLast_insert (pc : Word) : InsertLast [.insert pc] :=
  ⟨[], [.insert pc], rfl, noInsert_nil, .inr ⟨pc, rfl⟩⟩

theorem noInsert_lookup (pc : Word) : NoInsert [.lookup pc] := by
  intro pc' h
  cases List.mem_singleton.mp h

theorem noInsert_history (entry : Word × Option Ref) (pc : Word) : NoInsert (historyOps entry pc) := by
  unfold historyOps
  split
  · exact noInsert_nil
  · intro pc' h
    cases List.mem_singleton.mp h

theorem noInsert_clear (b : Bool) : NoInsert (if b then [.clear] else []) := by
  split_ifs
  · intro pc h
    cases List.mem_singleton.mp h
  · exact noInsert_nil

end Shape

theorem Conf.noInsert_refresh (c : Conf) : NoInsert c.refreshOps := by
  unfold Conf.refreshOps
  split
  · exact noInsert_nil
  · split_ifs
    · exact noInsert_nil
    · exact noInsert_lookup _

theorem Conf.mapOps_last (env : Env) (host : Host) (c : Conf) : InsertLast (c.mapOps env host) := by
  unfold Conf.mapOps
  split
  · split_ifs
    · refine (Conf.noInsert_refresh c).append_last ((noInsert_lookup _).append_last ?_)
      split
      · exact noInsert_nil.last
      · refine (noInsert_clear _).append_last ?_
        unfold Conf.insertOps
        simp only
        split_ifs
        · exact noInsert_nil.last
        · exact noInsert_nil.last
        · exact noInsert_nil.last
        · exact insertLast_insert _
    · exact noInsert_nil.last
  · simp only
    split
    · exact (noInsert_history _ _).last
    · exact noInsert_nil.last
  · exact noInsert_nil.last

namespace SysConf

variable {env : SysEnv} {host : SysHost}

theorem noInsert_refresh (c : SysConf) : NoInsert c.refreshOps := by
  unfold refreshOps
  split
  · exact noInsert_nil
  · split
    · exact noInsert_nil
    · split_ifs
      · exact noInsert_nil
      · exact noInsert_lookup _

theorem noInsert_interrupt (env : SysEnv) (host : SysHost) (c : SysConf) :
    NoInsert (c.interruptOps env host) := by
  unfold interruptOps
  split_ifs
  · exact noInsert_nil
  · split
    · exact noInsert_nil
    · exact noInsert_clear _

theorem noInsert_noBlock (env : SysEnv) (host : SysHost) (c : SysConf) :
    NoInsert (c.noBlockOps env host) := by
  unfold noBlockOps
  split_ifs
  · split
    · exact noInsert_nil
    · exact noInsert_clear _
  · exact noInsert_nil

theorem translateOps_last (env : SysEnv) (host : SysHost) (c : SysConf) :
    InsertLast (c.translateOps env host) := by
  refine (noInsert_lookup _).append_last ?_
  split
  · exact noInsert_nil.last
  · refine (noInsert_clear _).append_last ?_
    unfold insertOps
    split_ifs
    · exact noInsert_nil.last
    · split
      · exact noInsert_nil.last
      · refine (noInsert_clear _).append_last ?_
        split_ifs
        · exact noInsert_nil.last
        · exact noInsert_nil.last
        · exact insertLast_insert _

/-- Where `block_find_or_translate` returns `NULL`, nothing has been inserted. -/
theorem translateOps_noInsert {c c' : SysConf} (h : c.findOrTranslate env host = some (none, c')) :
    NoInsert (c.translateOps env host) := by
  refine (noInsert_lookup _).append ?_
  rcases hfind : c.eng.blockLookupOrFind env.extC c.sys.cpu.PC with ⟨_ | q, e⟩
  · rw [findOrTranslate_miss hfind] at h
    refine (noInsert_clear _).append ?_
    unfold insertOps
    split_ifs at h ⊢
    · exact noInsert_nil
    · cases htr : sysBlockTranslate env (sysRaise env host.fuel) host.fuel c.sys with
      | none => exact noInsert_nil
      | some d =>
        rw [htr] at h
        refine (noInsert_clear _).append ?_
        simp only at h
        split_ifs at h ⊢
        · exact noInsert_nil
        · cases h
  · exact noInsert_nil

theorem mapOps_last (env : SysEnv) (host : SysHost) (c : SysConf) : InsertLast (c.mapOps env host) := by
  unfold mapOps
  split
  · split_ifs
    · unfold dispatchOps
      cases c.checkInterrupt env host with
      | none => exact noInsert_nil.last
      | some c1 =>
        simp only [Option.bind_eq_bind, Option.bind_some]
        cases c1.refreshPrev env with
        | none => exact noInsert_nil.last
        | some e =>
          simp only [Option.bind_some]
          cases h3 : findOrTranslate env host { c1 with eng := e } with
          | none => exact noInsert_nil.last
          | some rc =>
            have hpre := (noInsert_interrupt env host c).append (noInsert_refresh c1)
            obtain ⟨r, c2⟩ := rc
            cases r with
            | none =>
              have hall := (hpre.append (translateOps_noInsert h3)).append (noInsert_noBlock env host c2)
              exact hall.last
            | some r =>
              simp only [Option.bind_some, Option.isNone_some, Bool.false_eq_true, if_false, List.append_nil,
                Option.pure_def, Option.getD_some]
              exact hpre.append_last (translateOps_last env host { c1 with eng := e })
    · exact noInsert_nil.last
  · unfold handlerOps
    split
    · exact noInsert_nil.last
    · simp only
      split
      · exact noInsert_nil.last
      · refine (noInsert_clear _).append_last ?_
        split
        · exact (noInsert_history _ _).last
        · exact noInsert_nil.last
  · exact noInsert_nil.last

end SysConf

/-! ## Runs -/

section Run

variable {fuel : Nat} {extC : Bool} {ops : List MapOp} {t t' : Tracked}

/-- Without insertions the blocks of the table stay, or all go. -/
theorem execAll_noInsert (hno : NoInsert ops) (hwf : t.Wf) (hcon : t.Consistent extC)
    (h : execAll fuel extC ops t = some t') :
    t'.Wf ∧ t'.Consistent extC ∧ (t'.live = [] ∨ t'.live = t.live ∧ .clear ∉ ops) := by
  induction ops generalizing t with
  | nil =>
    cases h
    exact ⟨hwf, hcon, .inr ⟨rfl, List.not_mem_nil⟩⟩
  | cons op ops ih =>
    obtain ⟨t1, h1, h⟩ := Option.bind_eq_some_iff.mp h
    have hop : op.Allowed t ∧ op.Fresh t := by
      cases op with
      | insert pc => exact absurd List.mem_cons_self (hno pc)
      | lookup pc => exact ⟨trivial, trivial⟩
      | find pc => exact ⟨trivial, trivial⟩
      | clear => exact ⟨trivial, trivial⟩
    have hno' : NoInsert ops := fun pc hmem => hno pc (List.mem_cons_of_mem _ hmem)
    obtain ⟨hwf', hcon', hlive⟩ := ih hno' (hwf.exec hop.1 h1) (hcon.exec hwf hop.2 h1) h
    refine ⟨hwf', hcon', ?_⟩
    obtain hnil | ⟨hsame, hclear⟩ := hlive
    · exact .inl hnil
    obtain ⟨pc, r, rfl, -, rfl⟩ | ⟨pc, rfl, rfl⟩ | ⟨rfl, rfl⟩ | ⟨pc, table, rfl, -, -⟩ := exec_cases h1
    · exact .inr ⟨hsame, by simpa using hclear⟩
    · exact .inr ⟨hsame, by simpa using hclear⟩
    · exact .inl hsame
    · exact absurd List.mem_cons_self (hno pc)

/-- **A step that inserts new blocks only keeps one block for an address.** -/
theorem execAll_consistent {B : Type} {e : BlockMap B} (hfuel : 1024 ≤ fuel) (hlast : InsertLast ops)
    (hnew : InsertsNew ops e) (hwf : t.Wf) (hr : Realizes fuel t e) (hcon : t.Consistent extC)
    (h : execAll fuel extC ops t = some t') : t'.Consistent extC := by
  obtain ⟨pre, last, rfl, hpre, rfl | ⟨pc, rfl⟩⟩ := hlast
  · rw [List.append_nil] at h
    exact (execAll_noInsert hpre hwf hcon h).2.1
  · rw [execAll_append] at h
    obtain ⟨t1, h1, h⟩ := Option.bind_eq_some_iff.mp h
    obtain ⟨hwf1, hcon1, hlive⟩ := execAll_noInsert hpre hwf hcon h1
    obtain ⟨t2, h2, h⟩ := Option.bind_eq_some_iff.mp h
    cases h
    refine hcon1.exec hwf1 ?_ h2
    change ∀ b ∈ t1.live, b.pcStart ≠ pc
    obtain hnil | ⟨hsame, hclear⟩ := hlive
    · rw [hnil]
      exact fun b hb => absurd hb List.not_mem_nil
    · have hnone : e.index pc = none := by
        refine (hnew pc (List.mem_append_right _ (List.mem_singleton.mpr rfl))).resolve_left fun hmem => ?_
        obtain hmem | hmem := List.mem_append.mp hmem
        · exact hclear hmem
        · cases List.mem_singleton.mp hmem
      obtain ⟨r, hfind⟩ := hwf.blockFind_ends hfuel pc
      have hr' : r = none := by
        have hindex := hr.index pc r hfind
        rw [hnone] at hindex
        exact Option.map_eq_none_iff.mp hindex.symm
      rw [hsame]
      exact (hwf.blockFind_live hfind).2 hr'

/-- The L1 cache agrees with the block map. -/
def L1Right {B : Type} (extC : Bool) (e : BlockMap B) : Prop :=
  ∀ pc, (e.l1 (l1Index extC pc)).1 = pc → (e.l1 (l1Index extC pc)).2 = e.index pc

theorem Tracked.Consistent.l1Right {B : Type} {e : BlockMap B} (hfuel : 1024 ≤ fuel)
    (hcon : t.Consistent extC) (hwf : t.Wf) (hr : Realizes fuel t e) : L1Right extC e := by
  intro pc htag
  rw [hr.l1] at htag ⊢
  obtain ⟨r, hfind⟩ := hwf.blockFind_ends hfuel pc
  have hptr : t.table.ptrs (l1Index extC pc) = r := by
    ext b
    exact (hcon.l1 pc htag b).trans (hcon.blockFind_iff hwf hfind b).symm
  rw [hr.index pc r hfind, hptr]

theorem runs_agree {B : Type} {e : Nat → BlockMap B} {ops : Nat → List MapOp} (hfuel : 1024 ≤ fuel)
    (hinit : e 0 = {}) (hstep : ∀ m, Performs fuel extC (ops m) (e m) (e (m + 1)))
    (hlast : ∀ m, InsertLast (ops m)) (n : Nat) :
    ∃ t, execAll fuel extC ((List.range n).flatMap ops) {} = some t ∧ t.Wf ∧ Realizes fuel t (e n) ∧
      ((∀ m < n, L1Right extC (e m) → InsertsNew (ops m) (e m)) → t.Consistent extC) := by
  induction n with
  | zero =>
    refine ⟨{}, rfl, wf_empty 0, ?_, fun _ => consistent_empty extC 0⟩
    rw [hinit]
    exact realizes_empty fuel
  | succ n ih =>
    obtain ⟨t, ht, hwf, hr, hcon⟩ := ih
    obtain ⟨t', ht', hwf', hr'⟩ := hstep n t hwf hr
    refine ⟨t', ?_, hwf', hr', fun hnew => ?_⟩
    · rw [List.range_succ, List.flatMap_append, execAll_append, ht, Option.bind_some, List.flatMap_singleton]
      exact ht'
    · have hcon' := hcon fun m hm => hnew m (by omega)
      have hnew' := hnew n (by omega) (hcon'.l1Right hfuel hwf hr)
      exact execAll_consistent hfuel (hlast n) hnew' hwf hr hcon' ht'

end Run

/-! ## The user-mode engine -/

section User

variable {B : Type} {extC : Bool} {e : BlockMap B}

theorem L1Right.lookup (h : L1Right extC e) (pc : Word) : L1Right extC (e.blockLookupOrFind extC pc).2 := by
  unfold BlockMap.blockLookupOrFind
  simp only
  split_ifs
  · exact h
  · cases hindex : e.index pc with
    | none => exact h
    | some r =>
      intro pc' htag
      simp only at htag ⊢
      by_cases hi : l1Index extC pc' = l1Index extC pc
      · rw [hi, Function.update_self] at htag ⊢
        rw [← htag, hindex]
      · rw [Function.update_of_ne hi] at htag ⊢
        exact h pc' htag

theorem blockLookupOrFind_index (pc : Word) : (e.blockLookupOrFind extC pc).2.index = e.index := by
  unfold BlockMap.blockLookupOrFind
  simp only
  split_ifs
  · rfl
  · split
    · rfl
    · rfl

theorem L1Right.index_of_miss (h : L1Right extC e) {pc : Word} {e' : BlockMap B}
    (hmiss : e.blockLookupOrFind extC pc = (none, e')) : e.index pc = none := by
  unfold BlockMap.blockLookupOrFind at hmiss
  simp only at hmiss
  split_ifs at hmiss with htag
  · rw [← h pc htag]
    exact congrArg Prod.fst hmiss
  · cases hindex : e.index pc with
    | none => rfl
    | some r =>
      rw [hindex] at hmiss
      cases hmiss

theorem Conf.insert_mem_translate {env : Env} {host : Host} {e : Engine} {s : Cpu} {pc : Word}
    (h : .insert pc ∈ translateOps env host e s) :
    pc = s.PC ∧ ∃ e', e.blockLookupOrFind env.extC s.PC = (none, e') := by
  unfold Conf.translateOps at h
  obtain hlook | h := List.mem_cons.mp h
  · cases hlook
  rcases hfind : e.blockLookupOrFind env.extC s.PC with ⟨_ | r, e'⟩
  · rw [hfind] at h
    obtain h | h := List.mem_append.mp h
    · exact absurd h (noInsert_clear _ pc)
    · unfold Conf.insertOps at h
      simp only at h
      split_ifs at h
      · cases h
      · cases h
      · cases h
      · cases List.mem_singleton.mp h
        exact ⟨rfl, e', rfl⟩
  · rw [hfind] at h
    cases h

/-- **The user-mode engine inserts a block only where it has just found none.** -/
theorem Conf.insertsNew (env : Env) (host : Host) {c : Conf} (h : L1Right env.extC c.eng) :
    InsertsNew (c.mapOps env host) c.eng := by
  have hrefresh : L1Right env.extC (c.refreshPrev env) ∧ (c.refreshPrev env).index = c.eng.index := by
    unfold Conf.refreshPrev
    split
    · exact ⟨h, rfl⟩
    · split_ifs
      · exact ⟨h, rfl⟩
      · exact ⟨h.lookup c.cpu.lastPc, blockLookupOrFind_index c.cpu.lastPc⟩
  intro pc hmem
  refine .inr ?_
  unfold Conf.mapOps at hmem
  split at hmem
  · split_ifs at hmem
    · obtain hmem | hmem := List.mem_append.mp hmem
      · exact absurd hmem (Conf.noInsert_refresh c pc)
      · obtain ⟨rfl, e', hmiss⟩ := Conf.insert_mem_translate hmem
        rw [← hrefresh.2]
        exact hrefresh.1.index_of_miss hmiss
    · cases hmem
  · simp only at hmem
    split at hmem
    · exact absurd hmem (noInsert_history _ _ pc)
    · cases hmem
  · cases hmem

end User

/-! ## All runs -/

/-- The operations of the first `n` steps. -/
def Conf.runOps (env : Env) (host : Host) (c : Conf) (n : Nat) : List MapOp :=
  (List.range n).flatMap fun m => (c.stepN env host m).1.mapOps env host

/-- The operations of the first `n` steps. -/
def SysConf.runOps (env : SysEnv) (host : SysHost) (c : SysConf) (n : Nat) : List MapOp :=
  (List.range n).flatMap fun m => (c.run env host m).mapOps env host

/-- **The lookup structures of both engines, over every run from empty ones.** All probe loops end. In a
user-mode build both lookups always return the one block inserted for an address; in a `SYSTEM` build
they do as long as no step inserts a block for an address that has one. -/
theorem blockLookup_agrees (fuel : Nat) (hfuel : 1024 ≤ fuel) :
    (∀ (env : Env) (host : Host) (c : Conf) (n : Nat), c.eng = {} →
      ∃ t, execAll fuel env.extC (c.runOps env host n) {} = some t ∧ t.Agrees fuel env.extC) ∧
    (∀ (env : SysEnv) (host : SysHost) (c : SysConf) (n : Nat), c.eng = {} →
      ∃ t, execAll fuel env.extC (c.runOps env host n) {} = some t ∧
        ((∀ m < n, InsertsNew ((c.run env host m).mapOps env host) (c.run env host m).eng) →
          t.Agrees fuel env.extC)) := by
  constructor
  · intro env host c n hinit
    have hstep : ∀ m, Performs fuel env.extC ((c.stepN env host m).1.mapOps env host)
        (c.stepN env host m).1.eng (c.stepN env host (m + 1)).1.eng := by
      intro m
      rw [Conf.stepN_succ]
      exact Conf.step_performs hfuel _
    obtain ⟨t, ht, hwf, -, hcon⟩ := runs_agree (e := fun m => (c.stepN env host m).1.eng) hfuel hinit hstep
      (fun m => Conf.mapOps_last env host _) n
    exact ⟨t, ht, (hcon fun m _ hl1 => Conf.insertsNew env host hl1).agrees hwf hfuel⟩
  · intro env host c n hinit
    have hstep : ∀ m, Performs fuel env.extC ((c.run env host m).mapOps env host)
        (c.run env host m).eng (c.run env host (m + 1)).eng := fun m => SysConf.step_performs hfuel _
    obtain ⟨t, ht, hwf, -, hcon⟩ := runs_agree (e := fun m => (c.run env host m).eng) hfuel hinit hstep
      (fun m => SysConf.mapOps_last env host _) n
    exact ⟨t, ht, fun hnew => (hcon fun m hm _ => hnew m hm).agrees hwf hfuel⟩

/-! ## A page fault during translation -/

/-- An `ELF_LOADER` build. -/
def restartEnv : SysEnv := { deviceless with elfLoader := true }

def restartHost : SysHost where
  blockAlloc _ := true
  fuseAlloc _ _ := true
  cyclePerStep := 100
  lazyAlloc _ _ := true
  fuel := 10

/-- At 0x1000 `jr t1`; at 0x2000 the handler `csrrw x0, sepc, s0; sret`; at 0x4000 a page table whose
only entry is a superpage at 0. -/
def restartMem : Mem :=
  (((Mem.writeW (fun _ => 0) 0x1000 0x00030067).writeW 0x2000 0x14141073).writeW 0x2004
    0x10200073).writeW 0x4000 0xf

/-- S-mode with the MMU on, at 0x1000; `t1` is an unmapped address and `s0` is 0x1000. -/
def restarting : Sys where
  cpu := { Cpu.zero restartMem with
    PC := 0x1000, privMode := 1,
    X := fun r => if r = 6 then 0x00800000 else if r = 8 then 0x1000 else 0
    csr := { (Cpu.zero restartMem).csr with stvec := 0x2000, satp := 4 } }

theorem restarting_ops :
    SysConf.runOps restartEnv restartHost { sys := restarting } 4 =
      [.lookup 0x1000, .insert 0x1000, .find 0x800000, .lookup 0x800000, .insert 0x1000] := by
  decide +kernel

/-- Up to the jump. -/
theorem blockLookup_agrees_restarting :
    ∃ t, execAll 1024 restartEnv.extC (SysConf.runOps restartEnv restartHost { sys := restarting } 3) {} =
        some t ∧ t.Agrees 1024 restartEnv.extC := by
  have h0 : (SysConf.run restartEnv restartHost { sys := restarting } 0).mapOps restartEnv restartHost =
      [] := by decide +kernel
  have h1 : (SysConf.run restartEnv restartHost { sys := restarting } 1).mapOps restartEnv restartHost =
      [.lookup 0x1000, .insert 0x1000] := by decide +kernel
  have h1' : (SysConf.run restartEnv restartHost { sys := restarting } 1).eng.index 0x1000 = none := by
    decide +kernel
  have h2 : (SysConf.run restartEnv restartHost { sys := restarting } 2).mapOps restartEnv restartHost =
      [.find 0x800000] := by decide +kernel
  obtain ⟨t, ht, hagrees⟩ :=
    (blockLookup_agrees 1024 le_rfl).2 restartEnv restartHost { sys := restarting } 3 rfl
  refine ⟨t, ht, hagrees fun m hm => ?_⟩
  obtain rfl | rfl | rfl : m = 0 ∨ m = 1 ∨ m = 2 := by omega
  · rw [h0]
    exact fun pc hmem => absurd hmem List.not_mem_nil
  · rw [h1]
    intro pc hmem
    obtain hmem | hmem := List.mem_cons.mp hmem
    · cases hmem
    · cases List.mem_singleton.mp hmem
      exact .inr h1'
  · rw [h2]
    intro pc hmem
    cases List.mem_singleton.mp hmem

/-- The fault at the target of the jump: its handler returns to 0x1000, and the block there is translated
and inserted once more. -/
theorem restarted_block_twice :
    ∃ t, execAll 1024 false (SysConf.runOps restartEnv restartHost { sys := restarting } 4) {} = some t ∧
      t.live = [⟨1, 0x1000⟩, ⟨0, 0x1000⟩] ∧ t.table.blockFind 1024 0x1000 = some (some ⟨0, 0x1000⟩) ∧
      (t.table.blockLookupOrFind 1024 false 0x1000).map Prod.fst = some (some ⟨1, 0x1000⟩) ∧
      ¬ t.Agrees 1024 false := by
  have hrun : (execAll 1024 false
      [.lookup 0x1000, .insert 0x1000, .find 0x800000, .lookup 0x800000, .insert 0x1000] {}).map
      (fun t => (t.live, t.table.blockFind 1024 0x1000,
        (t.table.blockLookupOrFind 1024 false 0x1000).map Prod.fst)) =
      some ([⟨1, 0x1000⟩, ⟨0, 0x1000⟩], some (some ⟨0, 0x1000⟩), some (some ⟨1, 0x1000⟩)) := by
    decide +kernel
  obtain ⟨t, ht, heq⟩ := Option.map_eq_some_iff.mp hrun
  simp only [Prod.mk.injEq] at heq
  obtain ⟨hlive, hfind, hlook⟩ := heq
  refine ⟨t, by rw [restarting_ops, ht], hlive, hfind, hlook, fun h => ?_⟩
  obtain ⟨r, t', hlook', hfind', -⟩ := h 0x1000
  rw [hlook', Option.map_some] at hlook
  obtain rfl : r = some ⟨1, 0x1000⟩ := Option.some.inj hlook
  rw [hfind] at hfind'
  cases hfind'

end Rv32emu
