import Rv32emu.SignalLink

/-!
# Cached code across address spaces

A block is found by its virtual address alone, so a `SYSTEM` build has to drop its blocks when the
address space changes. `csr_csrrw` asks for that, `csr_csrrs`, `csr_csrrc` and `SFENCE.VMA` do not.

* `BlockMap.Holds` : a block that the map, the L1 cache or `prev` still gives;
* `SysConf.Live` : the names that a machine uses are those of blocks; `run_live`;
* `Sys.ClearsMap` : the CSR instruction gets the block map cleared;
* `sysImpl_csr`, `sysImpl_sfencevma` : the two handlers, in any context;
* `address_space_discarded` : what is left of the old address space.
-/

open StateRel

namespace Rv32emu

/-! ## Names and blocks -/

namespace BlockMap

/-- The block `r` is in the block map or the L1 cache, or it is `prev`. -/
inductive Holds {B : Type} (e : BlockMap B) (r : Ref) : Prop
  | block (h : (e.block r).isSome)
  | index (pc : Word) (h : e.index pc = some r)
  | l1 (i : BitVec 8) (h : (e.l1 i).2 = some r)
  | prev (h : e.prev = some r)

/-- What the hash table and the L1 cache give are blocks. -/
structure Backed {B : Type} (e : BlockMap B) : Prop where
  index : ∀ pc r, e.index pc = some r → (e.block r).isSome
  l1 : ∀ i r, (e.l1 i).2 = some r → (e.block r).isSome

/-- `prev` is `NULL` or a block. -/
def PrevLive {B : Type} (e : BlockMap B) : Prop := ∀ p, e.prev = some p → (e.block p).isSome

variable {B : Type} {e : BlockMap B} {extC : Bool}

theorem backed_empty : Backed ({} : BlockMap B) where
  index _ _ h := nomatch h
  l1 _ _ h := nomatch h

theorem backed_clear (e : BlockMap B) : e.blockMapClear.Backed where
  index _ _ h := nomatch h
  l1 _ _ h := nomatch h

theorem isSome_insert {r : Ref} (pc : Word) (b : B) (h : (e.block r).isSome) :
    ((e.blockInsert extC pc b).block r).isSome := by
  simp only [blockInsert]
  by_cases hr : r = e.fresh
  · rw [hr, Function.update_self]
    rfl
  · rw [Function.update_of_ne hr]
    exact h

theorem isSome_fresh (pc : Word) (b : B) : ((e.blockInsert extC pc b).block e.fresh).isSome := by
  simp only [blockInsert, Function.update_self]
  rfl

theorem Backed.insert (h : e.Backed) (pc : Word) (b : B) : (e.blockInsert extC pc b).Backed where
  index pc' r hr := by
    simp only [blockInsert] at hr
    split at hr
    · exact isSome_insert pc b (h.index pc' r hr)
    · by_cases hpc : pc' = pc
      · rw [hpc, Function.update_self] at hr
        obtain rfl := Option.some.inj hr
        exact isSome_fresh pc b
      · rw [Function.update_of_ne hpc] at hr
        exact isSome_insert pc b (h.index pc' r hr)
  l1 i r hr := by
    simp only [blockInsert] at hr
    by_cases hi : i = l1Index extC pc
    · rw [hi, Function.update_self] at hr
      obtain rfl := Option.some.inj hr
      exact isSome_fresh pc b
    · rw [Function.update_of_ne hi] at hr
      exact isSome_insert pc b (h.l1 i r hr)

@[simp] theorem isSome_modify (q r : Ref) (f : B → B) :
    ((e.modify q f).block r).isSome = (e.block r).isSome := by
  simp only [modify]
  by_cases hr : r = q
  · rw [hr, Function.update_self, Option.isSome_map]
  · rw [Function.update_of_ne hr]

theorem Backed.modify (h : e.Backed) (q : Ref) (f : B → B) : (e.modify q f).Backed where
  index pc r hr := by
    rw [isSome_modify]
    exact h.index pc r hr
  l1 i r hr := by
    rw [isSome_modify]
    exact h.l1 i r hr

theorem PrevLive.modify (h : e.PrevLive) (q : Ref) (f : B → B) : (e.modify q f).PrevLive := by
  intro p hp
  rw [isSome_modify]
  exact h p hp

/-- `block_lookup_or_find` changes the L1 cache only, and what it finds is a block. -/
theorem Backed.lookup (h : e.Backed) (extC : Bool) (pc : Word) :
    (∃ l1, (e.blockLookupOrFind extC pc).2 = { e with l1 } ∧ Backed { e with l1 }) ∧
      ∀ r, (e.blockLookupOrFind extC pc).1 = some r → (e.block r).isSome := by
  unfold blockLookupOrFind
  simp only
  split
  · exact ⟨⟨e.l1, rfl, h⟩, fun r hr => h.l1 _ r hr⟩
  · cases hidx : e.index pc with
    | none => exact ⟨⟨e.l1, rfl, h⟩, fun r hr => nomatch hr⟩
    | some q =>
      have hq := h.index pc q hidx
      refine ⟨⟨_, rfl, h.index, fun i r hr => ?_⟩, fun r hr => Option.some.inj hr ▸ hq⟩
      by_cases hi : i = l1Index extC pc
      · simp only [hi, Function.update_self, Option.some.injEq] at hr
        exact hr ▸ hq
      · simp only [Function.update_of_ne hi] at hr
        exact h.l1 i r hr

/-- With backed names only the blocks and `prev` matter. -/
theorem Backed.holds_iff (h : e.Backed) (r : Ref) : e.Holds r ↔ (e.block r).isSome ∨ e.prev = some r := by
  constructor
  · rintro (hb | ⟨pc, hi⟩ | ⟨i, hl⟩ | hp)
    · exact .inl hb
    · exact .inl (h.index pc r hi)
    · exact .inl (h.l1 i r hl)
    · exact .inr hp
  · rintro (hb | hp)
    · exact .block hb
    · exact .prev hp

end BlockMap

/-! ## Machines -/

namespace SysConf

/-- The names that a machine uses are those of blocks, and nothing noted by a nested interpreter is
outstanding. -/
structure Live (c : SysConf) : Prop where
  backed : c.eng.Backed
  notCleared : c.sys.blockMapCleared = false
  notNull : c.sys.prevNull = false
  running : ∀ disp cur rest cycle pc, c.loc = .run disp cur rest cycle pc →
    (c.eng.block disp).isSome ∧ c.eng.PrevLive

variable {env : SysEnv} {host : SysHost} {c c' : SysConf}

theorem settle_backed (h : c.eng.Backed) (s : Sys) : (c.settle s).eng.Backed := by
  have he : (if s.blockMapCleared then c.eng.blockMapClear else c.eng).Backed := by
    split
    · exact BlockMap.backed_clear _
    · exact h
  unfold settle
  dsimp only
  split
  · exact ⟨he.index, he.l1⟩
  · exact he

/-- Where a block is left, the map has not been cleared. -/
theorem settle_block {s : Sys} {cur : Ref} (h : ((c.settle s).eng.block cur).isSome) :
    (c.settle s).eng.block = c.eng.block := by
  unfold settle at h ⊢
  dsimp only at h ⊢
  by_cases hclear : s.blockMapCleared = true
  · rw [if_pos hclear] at h
    split at h
    · cases h
    · cases h
  · rw [if_neg hclear]
    split
    · rfl
    · rfl

theorem settle_prev (c : SysConf) (s : Sys) : (c.settle s).eng.prev = if s.prevNull then none else c.eng.prev := by
  unfold settle
  dsimp only
  split
  · rfl
  · split
    · rfl
    · rfl

theorem settle_prevLive (h : c.eng.PrevLive) {s : Sys} {cur : Ref} (hcur : ((c.settle s).eng.block cur).isSome) :
    (c.settle s).eng.PrevLive := by
  intro p hp
  rw [settle_block hcur]
  rw [settle_prev] at hp
  split at hp
  · cases hp
  · exact h p hp

/-- A run of nested handlers that clears the map resets `prev`. -/
theorem settle_prevLive_of_quiet (h : c.eng.PrevLive) (hclear : c.sys.blockMapCleared = false) {s : Sys}
    (hq : Quiet c.sys s) : (c.settle s).eng.PrevLive := by
  intro p hp
  rw [settle_prev] at hp
  split at hp
  · cases hp
  · rename_i hnull
    rcases hq with hq | ⟨-, hkept, -, -⟩
    · exact absurd hq hnull
    · have heng : (c.settle s).eng.block = c.eng.block := by
        unfold settle
        dsimp only
        rw [if_neg hnull, hkept, hclear]
        rfl
      rw [heng]
      exact h p hp

theorem live_of_loc (hb : c.eng.Backed) (hc : c.sys.blockMapCleared = false) (hn : c.sys.prevNull = false)
    (hloc : ∀ disp cur rest cycle pc, c.loc ≠ .run disp cur rest cycle pc) : c.Live where
  backed := hb
  notCleared := hc
  notNull := hn
  running disp cur rest cycle pc h := absurd h (hloc disp cur rest cycle pc)

theorem handlerReturned_live (hb : c.eng.Backed) (hc : c.sys.blockMapCleared = false)
    (hn : c.sys.prevNull = false) (disp : Ref) (ok : Bool) : (c.handlerReturned disp ok).Live := by
  unfold handlerReturned
  cases ok with
  | false => exact live_of_loc ⟨hb.index, hb.l1⟩ hc hn fun _ _ _ _ _ h => nomatch h
  | true => exact live_of_loc ⟨hb.index, hb.l1⟩ hc hn fun _ _ _ _ _ h => nomatch h

theorem dead_live (hb : c.eng.Backed) (hc : c.sys.blockMapCleared = false) (hn : c.sys.prevNull = false) :
    Live { c with loc := .dead } := live_of_loc hb hc hn fun _ _ _ _ _ h => nomatch h

theorem enter_live (hb : c.eng.Backed) (hc : c.sys.blockMapCleared = false) (hn : c.sys.prevNull = false)
    {disp : Ref} (hdisp : (c.eng.block disp).isSome) (hprev : c.eng.PrevLive) (r : Ref) (cycle : BitVec 64)
    (pc : Word) : (c.enter disp r cycle pc).Live := by
  unfold enter
  split
  · refine ⟨hb, hc, hn, fun _ _ _ _ _ hloc => ?_⟩
    cases hloc
    exact ⟨hdisp, hprev⟩
  · exact dead_live hb hc hn

theorem lookupBranch_live (hb : c.eng.Backed) (hc : c.sys.blockMapCleared = false) (hn : c.sys.prevNull = false)
    {disp : Ref} (hdisp : (c.eng.block disp).isSome) (hprev : c.eng.PrevLive) (cur : Ref) (ir : Insn)
    (cycle : BitVec 64) (pc : Word) : (c.lookupBranch disp cur ir cycle pc).Live := by
  unfold lookupBranch
  dsimp only
  split
  · exact enter_live hb hc hn hdisp hprev _ _ _
  · refine enter_live (c := { c with eng := _ }) (hb.modify _ _) hc hn ?_ (hprev.modify _ _) _ _ _
    exact (BlockMap.isSome_modify cur disp _).trans hdisp
  · refine handlerReturned_live (by exact hb) ?_ ?_ disp true
    · split
      · unfold relocateEnableMmu
        split
        · exact hc
        · exact hc
      · exact hc
    · split
      · unfold relocateEnableMmu
        split
        · exact hn
        · exact hn
      · exact hn

theorem stepRun_live (hb : c.eng.Backed) (hc : c.sys.blockMapCleared = false) (hn : c.sys.prevNull = false)
    {disp : Ref} (hdisp : (c.eng.block disp).isSome) (hprev : c.eng.PrevLive) (cur : Ref) (rest : List Insn)
    (cycle : BitVec 64) (pc : Word) : (c.stepRun env host disp cur rest cycle pc).1.Live := by
  unfold stepRun
  split
  · exact dead_live hb hc hn
  · dsimp only
    split
    · exact dead_live hb hc hn
    · rename_i ctl s _
      have hb' := settle_backed hb s
      have hrun (hcur : ¬ ((c.settle s).eng.block cur).isNone = true) :
          ((c.settle s).eng.block disp).isSome ∧ (c.settle s).eng.PrevLive := by
        have hsome : ((c.settle s).eng.block cur).isSome := by
          rw [Option.isSome_iff_ne_none]
          exact fun hnone => hcur (by rw [hnone]; rfl)
        rw [settle_block hsome]
        exact ⟨hdisp, settle_prevLive hprev hsome⟩
      cases ctl with
      | signal => exact handlerReturned_live hb' rfl rfl disp true
      | ret ok => exact handlerReturned_live hb' rfl rfl disp ok
      | next cycle pc =>
        dsimp only
        split
        · exact dead_live hb' rfl rfl
        · rename_i hcur
          refine ⟨hb', rfl, rfl, fun _ _ _ _ _ hloc => ?_⟩
          cases hloc
          exact hrun hcur
      | enter r cycle pc =>
        dsimp only
        split
        · exact dead_live hb' rfl rfl
        · rename_i hcur
          exact enter_live hb' rfl rfl (hrun hcur).1 (hrun hcur).2 _ _ _
      | lookup cycle pc =>
        dsimp only
        split
        · exact dead_live hb' rfl rfl
        · rename_i hcur
          exact lookupBranch_live hb' rfl rfl (hrun hcur).1 (hrun hcur).2 _ _ _ _

/-- `prev` is looked up again, or it is a block already. -/
theorem refreshPrev_live (h : c.eng.Backed) {e : BlockMap SysBlock} (he : c.refreshPrev env = some e) :
    e.Backed ∧ e.PrevLive := by
  unfold refreshPrev at he
  split at he
  · rename_i hprev
    obtain rfl := Option.some.inj he
    exact ⟨h, fun p hp => by rw [hprev] at hp; cases hp⟩
  · rename_i q hprev
    split at he
    · cases he
    · rename_i b hb
      split at he
      · obtain rfl := Option.some.inj he
        refine ⟨h, fun p hp => ?_⟩
        rw [hprev] at hp
        obtain rfl := Option.some.inj hp
        rw [hb]
        rfl
      · obtain ⟨⟨l1, hl1, hbacked⟩, hfound⟩ := h.lookup env.extC c.sys.cpu.lastPc
        obtain rfl := Option.some.inj he
        rw [hl1]
        exact ⟨⟨hbacked.index, hbacked.l1⟩, fun p hp => hfound p hp⟩

/-- What `block_find_or_translate` returns is a block. -/
theorem findOrTranslate_live (h : c.eng.Backed) (hprev : c.eng.PrevLive) (hc : c.sys.blockMapCleared = false)
    (hn : c.sys.prevNull = false) {o : Option Ref} (hfind : findOrTranslate env host c = some (o, c')) :
    c'.eng.Backed ∧ c'.eng.PrevLive ∧ c'.sys.blockMapCleared = false ∧ c'.sys.prevNull = false ∧
      ∀ r, o = some r → (c'.eng.block r).isSome := by
  obtain ⟨⟨l1, hl1, hb⟩, hfound⟩ := h.lookup env.extC c.sys.cpu.PC
  unfold findOrTranslate at hfind
  rcases hlook : c.eng.blockLookupOrFind env.extC c.sys.cpu.PC with ⟨_ | r, e⟩
  · rw [hlook] at hl1 hfind
    obtain rfl : e = _ := hl1
    dsimp only at hfind
    generalize he : (if mapFull _ = true then _ else _ : BlockMap SysBlock) = e' at hfind
    have hb' : e'.Backed ∧ e'.PrevLive := by
      subst he
      split
      · exact ⟨⟨fun _ _ hr => (nomatch hr), fun _ _ hr => (nomatch hr)⟩, fun p hp => nomatch hp⟩
      · exact ⟨hb, hprev⟩
    split at hfind
    · obtain ⟨rfl, rfl⟩ := Prod.mk.inj (Option.some.inj hfind)
      exact ⟨hb'.1, hb'.2, hc, hn, fun r hr => nomatch hr⟩
    · split at hfind
      · cases hfind
      · rename_i d s hrun
        have hq := sysBlockTranslate_quiet (sysRaise_quiet env host.fuel) host.fuel _ _ _ hrun
        have hs := settle_backed (c := { c with eng := e' }) hb'.1 s
        have hp := settle_prevLive_of_quiet (c := { c with eng := e' }) hb'.2 hc hq
        split at hfind
        · obtain ⟨rfl, rfl⟩ := Prod.mk.inj (Option.some.inj hfind)
          exact ⟨hs, hp, rfl, rfl, fun r hr => nomatch hr⟩
        · split at hfind
          · cases hfind
          · obtain ⟨rfl, rfl⟩ := Prod.mk.inj (Option.some.inj hfind)
            refine ⟨hs.insert _ _, fun p hprev => BlockMap.isSome_insert _ _ (hp p hprev), rfl, rfl, ?_⟩
            intro r hr
            obtain rfl := Option.some.inj hr
            exact BlockMap.isSome_fresh _ _
  · rw [hlook] at hl1 hfound hfind
    obtain rfl : e = _ := hl1
    obtain ⟨rfl, rfl⟩ := Prod.mk.inj (Option.some.inj hfind)
    have hr := hfound r rfl
    dsimp only
    split
    · refine ⟨hb.modify _ _, BlockMap.PrevLive.modify hprev _ _, hc, hn, fun q hq => ?_⟩
      obtain rfl := Option.some.inj hq
      exact (BlockMap.isSome_modify r r _).trans hr
    · exact ⟨hb, hprev, hc, hn, fun q hq => Option.some.inj hq ▸ hr⟩

theorem checkInterrupt_live (h : c.Live) (hc : c.checkInterrupt env host = some c') :
    c'.eng.Backed ∧ c'.sys.blockMapCleared = false ∧ c'.sys.prevNull = false := by
  unfold checkInterrupt at hc
  split at hc
  · exact Option.some.inj hc ▸ ⟨h.backed, h.notCleared, h.notNull⟩
  · obtain ⟨r, -, rfl⟩ := Option.map_eq_some_iff.mp hc
    exact ⟨settle_backed h.backed _, rfl, rfl⟩

theorem noBlock_live (hb : c.eng.Backed) (hc : c.sys.blockMapCleared = false) (hn : c.sys.prevNull = false) :
    (c.noBlock env host).Live := by
  unfold noBlock
  split
  · split
    · exact dead_live hb hc hn
    · rename_i s _
      have hs := settle_backed hb s
      exact live_of_loc ⟨hs.index, hs.l1⟩ rfl rfl fun _ _ _ _ _ h => nomatch h
  · exact live_of_loc hb hc hn fun _ _ _ _ _ h => nomatch h

theorem linkAndRun_live (hb : c.eng.Backed) (hprev : c.eng.PrevLive) (hc : c.sys.blockMapCleared = false)
    (hn : c.sys.prevNull = false) {r : Ref} (hr : (c.eng.block r).isSome) : (c.linkAndRun r).Live := by
  unfold linkAndRun
  split
  · exact dead_live hb hc hn
  · dsimp only
    split
    · refine ⟨hb.modify _ _, hc, hn, fun _ _ _ _ _ hloc => ?_⟩
      cases hloc
      exact ⟨(BlockMap.isSome_modify _ _ _).trans hr, hprev.modify _ _⟩
    · refine ⟨hb, hc, hn, fun _ _ _ _ _ hloc => ?_⟩
      cases hloc
      exact ⟨hr, hprev⟩

theorem step_live (env : SysEnv) (host : SysHost) (h : c.Live) : (c.step env host).1.Live := by
  unfold step
  rcases hloc : c.loc with _ | _ | ⟨disp, cur, rest, cycle, pc⟩ | _
  · exact live_of_loc h.backed h.notCleared h.notNull fun _ _ _ _ _ h => nomatch h
  · dsimp only
    split
    · rcases dispatch_cases env host c with hd | ⟨c1, e, o, c2, hc1, he, hfind, hd⟩
      · rw [hd]
        exact dead_live h.backed h.notCleared h.notNull
      · obtain ⟨hb1, hc1', hn1⟩ := checkInterrupt_live h hc1
        obtain ⟨hbe, hpe⟩ := refreshPrev_live hb1 he
        obtain ⟨hb, hp, hc, hn, ho⟩ := findOrTranslate_live (c := { c1 with eng := e }) hbe hpe hc1' hn1 hfind
        rw [hd]
        cases o with
        | none => exact noBlock_live hb hc hn
        | some r => exact linkAndRun_live hb hp hc hn (ho r rfl)
    · exact live_of_loc h.backed h.notCleared h.notNull fun _ _ _ _ _ h => nomatch h
  · obtain ⟨hdisp, hprev⟩ := h.running _ _ _ _ _ hloc
    exact stepRun_live h.backed h.notCleared h.notNull hdisp hprev _ _ _ _
  · exact h

/-- **In every state that a machine reaches the names in use are those of blocks.** -/
theorem run_live (env : SysEnv) (host : SysHost) {s : Sys} (hc : s.blockMapCleared = false)
    (hn : s.prevNull = false) (n : Nat) : (run env host { sys := s } n).Live := by
  induction n with
  | zero => exact live_of_loc BlockMap.backed_empty hc hn fun _ _ _ _ _ h => nomatch h
  | succ n ih => exact step_live env host ih

end SysConf

/-! ## The handlers -/

def Opcode.isCsr : Opcode → Bool
  | .csrrw | .csrrs | .csrrc | .csrrwi | .csrrsi | .csrrci => true
  | _ => false

/-- The CSR instruction clears the block map: it is one of those that ask for that when they write
`satp`, or an earlier one has asked, and no signal is pending. -/
def Sys.ClearsMap (s : Sys) (ir : Insn) : Prop :=
  s.needHandleSignal = false ∧ (ir.opcode = .csrrw ∨ ir.opcode = .csrrwi ∨ s.needClearBlockMap = true)

def Sys.TlbsEmpty (s : Sys) : Prop := (∀ i, (s.dtlb i).valid = false) ∧ ∀ i, (s.itlb i).valid = false

/-- A handler goes on to the next node, to a linked block or back to `rv_step`, with `true`. -/
def SysCtl.GoesOn : SysCtl → Prop
  | .next .. | .enter .. | .ret true | .signal => True
  | .lookup .. | .ret false => False

section Handlers

variable {env : SysEnv} {raise : Raise} {ir : Insn} {lk : Links} {noNext : Bool} {cycle : BitVec 64} {pc : Word}
  {s s' : Sys} {ctl : SysCtl}

theorem csrWrite_satp (s : Cpu) (v : Word) {p : CsrPtr} (h : p ≠ .satp) :
    (csrWrite s v p).csr.satp = s.csr.satp := by
  cases p <;> first
    | rfl
    | exact absurd rfl h

/-- Only an access to `satp` changes it. -/
theorem csrUpdate_satp (env : Env) (f : Word → Word) {csr : Word} (cycle : BitVec 64) (s : Cpu)
    (h : csrGetPtr csr ≠ some .satp) : (csrUpdate env f csr cycle s).2.csr.satp = s.csr.satp := by
  have hsync : (csrSyncCycle s csr cycle).csr.satp = s.csr.satp := by
    unfold csrSyncCycle
    split <;> rfl
  have htouch : ∀ (t : Cpu) (p : CsrPtr), (csrTouch env t p).csr.satp = t.csr.satp := by
    intro t p
    cases p <;> rfl
  unfold csrUpdate
  simp only
  cases hp : csrGetPtr csr with
  | none => exact hsync
  | some p =>
    have hne : p ≠ .satp := by
      rintro rfl
      exact h hp
    rw [csrWrite_satp _ _ hne, htouch, hsync]

/-- The state after the code of a CSR handler. -/
def csrEffect (env : SysEnv) (ir : Insn) (f : Env → Insn → (Reg → Word) → BitVec 64 → Cpu → Word × Cpu)
    (cycle : BitVec 64) (pc : Word) (s : Sys) : Sys :=
  let cpu := { s.cpu with PC := pc }
  let r := f { env.toEnv with gettimeofday := fun _ => cycle + s.timerOffset } ir cpu.X cycle cpu
  let t := csrSideEffects ir cpu.csr.satp { s with cpu := r.2 }
  { t with cpu := t.cpu.setXNz ir.rd r.1 }

theorem sysImpl_csrEffect (hcsr : ir.opcode.isCsr = true)
    (hrun : sysImpl env raise ir lk noNext cycle pc s = some (ctl, s')) :
    ∃ f, rvop ir.opcode = .csr f ∧
      signalOr (sysNextop ir lk noNext (cycle + 1) pc) (csrEffect env ir f (cycle + 1) pc s) = some (ctl, s') := by
  have hrvop : ∃ f, rvop ir.opcode = .csr f ∧
      sysImpl env raise ir lk noNext cycle pc = sysRvop env raise ir lk noNext cycle pc := by
    unfold sysImpl
    cases hop : ir.opcode <;> rw [hop] at hcsr <;> first
      | exact absurd hcsr Bool.false_ne_true
      | exact ⟨_, rfl, rfl⟩
  obtain ⟨f, hf, himpl⟩ := hrvop
  rw [himpl] at hrun
  unfold sysRvop at hrun
  rw [hf] at hrun
  exact ⟨f, hf, hrun⟩

theorem get_bind_run {α : Type} (f : Sys → SysM α) (s : Sys) : (get >>= f) s = f s s := rfl

/-- `end_op` enters the block that is taken or saves the state and returns. -/
theorem sysEndOp_cases {t : Sys} (hrun : sysEndOp ir lk cycle pc t = some (ctl, s')) :
    (∃ r, ctl = .enter r cycle pc ∧ s' = { t with cpu := { t.cpu with lastPc := pc } }) ∨
      (ctl = .ret true ∧ s' = { t with cpu := t.cpu.save cycle pc }) := by
  unfold sysEndOp at hrun
  rw [get_bind_run] at hrun
  obtain ⟨trapped, htrapped⟩ : ∃ b, t.isTrapped = b := ⟨_, rfl⟩
  rw [htrapped] at hrun
  cases hbranch : ir.opcode.canBranch <;> cases hlink : lk.taken <;> cases trapped <;> rw [hbranch, hlink] at hrun
  case false.some.false r =>
    cases hrun
    exact .inl ⟨r, rfl, rfl⟩
  all_goals
    cases hrun
    exact .inr ⟨rfl, rfl⟩

/-- `end_op` behind a node that is no branch. -/
theorem sysEndOp_goesOn {t : Sys} (hrun : sysEndOp ir lk cycle pc t = some (ctl, s')) :
    ctl.GoesOn ∧ s'.cpu.csr.satp = t.cpu.csr.satp ∧ s'.dtlb = t.dtlb ∧ s'.itlb = t.itlb ∧
      s'.prevNull = t.prevNull ∧ s'.blockMapCleared = t.blockMapCleared := by
  obtain ⟨r, rfl, rfl⟩ | ⟨rfl, rfl⟩ := sysEndOp_cases hrun
  · exact ⟨trivial, rfl, rfl, rfl, rfl, rfl⟩
  · exact ⟨trivial, rfl, rfl, rfl, rfl, rfl⟩

theorem csrEffect_kept (env : SysEnv) (ir : Insn) (f : Env → Insn → (Reg → Word) → BitVec 64 → Cpu → Word × Cpu)
    (cycle : BitVec 64) (pc : Word) (s : Sys) :
    (csrEffect env ir f cycle pc s).needHandleSignal = s.needHandleSignal ∧
      (csrEffect env ir f cycle pc s).blockMapCleared = s.blockMapCleared ∧
      (csrEffect env ir f cycle pc s).prevNull = s.prevNull := by
  unfold csrEffect csrSideEffects
  simp only
  split_ifs <;> exact ⟨rfl, rfl, rfl⟩

theorem csrEffect_satp (f : Env → Insn → (Reg → Word) → BitVec 64 → Cpu → Word × Cpu) :
    (csrEffect env ir f cycle pc s).cpu.csr.satp =
      (f { env.toEnv with gettimeofday := fun _ => cycle + s.timerOffset } ir s.cpu.X cycle
        { s.cpu with PC := pc }).2.csr.satp := by
  have hset : ∀ (t : Cpu) (r : Reg) (v : Word), (t.setXNz r v).csr = t.csr := by
    intro t r v
    unfold Cpu.setXNz
    split_ifs <;> rfl
  unfold csrEffect csrSideEffects
  simp only [hset]
  split_ifs <;> rfl

/-- A CSR instruction that changes `satp` accesses it, and flushes the TLBs. -/
theorem csrEffect_of_satp_ne {f : Env → Insn → (Reg → Word) → BitVec 64 → Cpu → Word × Cpu}
    (hf : rvop ir.opcode = .csr f) (hne : (csrEffect env ir f cycle pc s).cpu.csr.satp ≠ s.cpu.csr.satp) :
    (csrEffect env ir f cycle pc s).TlbsEmpty ∧
      (csrEffect env ir f cycle pc s).needClearBlockMap =
        (s.needClearBlockMap || decide (ir.opcode = .csrrw ∨ ir.opcode = .csrrwi)) := by
  rw [csrEffect_satp] at hne
  have hptr : csrGetPtr ir.imm = some .satp := by
    by_contra h
    refine hne ?_
    cases hop : ir.opcode <;> rw [hop] at hf <;> first
      | (cases hf; done)
      | (cases hf; exact csrUpdate_satp _ _ _ _ h)
  have hflush : ∀ t : Sys, Sys.TlbsEmpty t.tlbFlushAll := fun t => ⟨fun _ => rfl, fun _ => rfl⟩
  unfold csrEffect csrSideEffects
  simp only
  rw [if_pos hptr, if_pos hne]
  by_cases hop : ir.opcode = .csrrw ∨ ir.opcode = .csrrwi
  · rw [if_pos hop, decide_eq_true hop]
    exact ⟨hflush s, (Bool.or_true _).symm⟩
  · rw [if_neg hop, decide_eq_false hop]
    exact ⟨hflush s, (Bool.or_false _).symm⟩

/-- After the code of a CSR handler the block map is cleared, or control goes on. -/
theorem signalOr_nextop {t : Sys} (hrun : signalOr (sysNextop ir lk noNext cycle pc) t = some (ctl, s')) :
    (s'.cpu.csr.satp = t.cpu.csr.satp ∧ s'.dtlb = t.dtlb ∧ s'.itlb = t.itlb ∧ s'.prevNull = t.prevNull) ∧
      ((t.needHandleSignal = false ∧ t.needClearBlockMap = true) ∧ ctl = .ret false ∧ s'.blockMapCleared = true ∨
        ¬ (t.needHandleSignal = false ∧ t.needClearBlockMap = true) ∧ ctl.GoesOn ∧
          s'.blockMapCleared = t.blockMapCleared) := by
  change (if t.needHandleSignal = true then _ else _ : SysM SysCtl) t = _ at hrun
  by_cases hpending : t.needHandleSignal = true
  · rw [if_pos hpending] at hrun
    cases hrun
    refine ⟨⟨rfl, rfl, rfl, rfl⟩, .inr ⟨fun h => ?_, trivial, rfl⟩⟩
    rw [hpending] at h
    exact absurd h.1 (by decide)
  rw [if_neg hpending] at hrun
  change (if t.needClearBlockMap = true then _ else _ : SysM SysCtl) t = _ at hrun
  by_cases hclear : t.needClearBlockMap = true
  · rw [if_pos hclear] at hrun
    cases hrun
    exact ⟨⟨rfl, rfl, rfl, rfl⟩, .inl ⟨⟨Bool.eq_false_iff.mpr hpending, hclear⟩, rfl, rfl⟩⟩
  · rw [if_neg hclear] at hrun
    change (if (noNext || t.isTrapped) = true then _ else _ : SysM SysCtl) t = _ at hrun
    split_ifs at hrun
    · obtain ⟨hgo, hsatp, hd, hi, hn, hc⟩ := sysEndOp_goesOn hrun
      exact ⟨⟨hsatp, hd, hi, hn⟩, .inr ⟨fun h => hclear h.2, hgo, hc⟩⟩
    · cases hrun
      exact ⟨⟨rfl, rfl, rfl, rfl⟩, .inr ⟨fun h => hclear h.2, trivial, rfl⟩⟩

theorem sysImpl_csr_ctl (hcsr : ir.opcode.isCsr = true)
    (hrun : sysImpl env raise ir lk noNext cycle pc s = some (ctl, s')) : ctl.GoesOn ∨ ctl = .ret false := by
  obtain ⟨f, -, hrun⟩ := sysImpl_csrEffect hcsr hrun
  rcases (signalOr_nextop hrun).2 with ⟨-, hret, -⟩ | ⟨-, hgo, -⟩
  · exact .inr hret
  · exact .inl hgo

/-- **The handler of a CSR instruction that changes `satp`.** The TLBs are flushed; the block map is
cleared or control goes on. -/
theorem sysImpl_csr (hcsr : ir.opcode.isCsr = true)
    (hrun : sysImpl env raise ir lk noNext cycle pc s = some (ctl, s'))
    (hne : s'.cpu.csr.satp ≠ s.cpu.csr.satp) :
    s'.TlbsEmpty ∧ s'.prevNull = s.prevNull ∧
      ((s.ClearsMap ir ∧ ctl = .ret false ∧ s'.blockMapCleared = true) ∨
        (¬ s.ClearsMap ir ∧ ctl.GoesOn ∧ s'.blockMapCleared = s.blockMapCleared)) := by
  obtain ⟨f, hf, hrun⟩ := sysImpl_csrEffect hcsr hrun
  obtain ⟨⟨hsatp, hd, hi, hn⟩, hcase⟩ := signalOr_nextop hrun
  rw [hsatp] at hne
  obtain ⟨hsig, hclr, hnull⟩ := csrEffect_kept env ir f (cycle + 1) pc s
  obtain ⟨⟨hdtlb, hitlb⟩, hflag⟩ := csrEffect_of_satp_ne hf hne
  have hiff : ((csrEffect env ir f (cycle + 1) pc s).needHandleSignal = false ∧
      (csrEffect env ir f (cycle + 1) pc s).needClearBlockMap = true) ↔ s.ClearsMap ir := by
    unfold Sys.ClearsMap
    rw [hsig, hflag, Bool.or_eq_true, decide_eq_true_eq]
    tauto
  rw [hiff, hclr] at hcase
  refine ⟨⟨?_, ?_⟩, hn.trans hnull, hcase⟩
  · rw [hd]
    exact hdtlb
  · rw [hi]
    exact hitlb

/-- **The handler of `SFENCE.VMA`.** It flushes TLB entries and goes on. -/
theorem sysImpl_sfencevma (hop : ir.opcode = .sfencevma)
    (hrun : sysImpl env raise ir lk noNext cycle pc s = some (ctl, s')) :
    ctl.GoesOn ∧ s'.prevNull = s.prevNull ∧ s'.blockMapCleared = s.blockMapCleared := by
  have himpl : sysImpl env raise ir lk noNext cycle pc s =
      sysEndOp ir lk (cycle + 1) (pc + 4)
        (let t := { s with cpu := { s.cpu with PC := pc } }
         if ir.rs1 = 0 then t.tlbFlushAll else t.tlbFlush (t.cpu.X ir.rs1)) := by
    unfold sysImpl sysRvop
    simp only [hop]
    rw [show rvop .sfencevma = .leave from rfl]
    change (Code.sysExec env raise ir lk (cycle + 1) pc .leave _).bind _ = _
    unfold Code.sysExec
    simp only [hop]
    rfl
  rw [himpl] at hrun
  obtain ⟨hgo, -, -, -, hn, hc⟩ := sysEndOp_goesOn hrun
  refine ⟨hgo, hn.trans ?_, hc.trans ?_⟩
  · simp only
    split_ifs <;> rfl
  · simp only
    split_ifs <;> rfl

end Handlers

/-! ## What is left of the old address space -/

namespace SysConf

variable {env : SysEnv} {host : SysHost} {c : SysConf} {disp cur : Ref} {ir : Insn} {rest : List Insn}
  {cycle : BitVec 64} {pc : Word} {ctl : SysCtl} {s s' : Sys}

/-- The handler that the running block calls next. -/
def handler (env : SysEnv) (host : SysHost) (c : SysConf) (cur : Ref) (ir : Insn) (rest : List Insn)
    (cycle : BitVec 64) (pc : Word) : Option (SysCtl × Sys) :=
  sysImpl env (sysRaise env host.fuel) ir (if rest.isEmpty then (c.eng.block cur).elim {} fun b => b.links else {})
    rest.isEmpty cycle pc c.sys

theorem settle_eq (hc : s.blockMapCleared = false) (hn : s.prevNull = false) : (c.settle s).eng = c.eng := by
  unfold settle
  simp [hc, hn]

/-- A handler that returns `false` with the map cleared leaves nothing. -/
theorem stepRun_clears (hrun : c.handler env host cur ir rest cycle pc = some (.ret false, s'))
    (hclear : s'.blockMapCleared = true) (r : Ref) :
    ¬ (c.stepRun env host disp cur (ir :: rest) cycle pc).1.eng.Holds r := by
  have heng : (c.stepRun env host disp cur (ir :: rest) cycle pc).1.eng =
      { c.eng.blockMapClear with prev := none } := by
    unfold handler at hrun
    unfold stepRun
    simp only [hrun]
    change { (c.settle s').eng with prev := none } = _
    unfold settle
    simp only [hclear, if_pos]
    split_ifs <;> rfl
  rw [heng]
  rintro (h | ⟨pc, h⟩ | ⟨i, h⟩ | h)
  · cases h
  · cases h
  · cases h
  · cases h

/-- A handler that goes on leaves what there was. -/
theorem stepRun_holds (h : c.Live) (hloc : c.loc = .run disp cur (ir :: rest) cycle pc)
    (hrun : c.handler env host cur ir rest cycle pc = some (ctl, s')) (hgo : ctl.GoesOn)
    (hc : s'.blockMapCleared = false) (hn : s'.prevNull = false) (r : Ref) :
    (c.stepRun env host disp cur (ir :: rest) cycle pc).1.eng.Holds r ↔ c.eng.Holds r := by
  obtain ⟨hdisp, hprev⟩ := h.running _ _ _ _ _ hloc
  have heng : (c.stepRun env host disp cur (ir :: rest) cycle pc).1.eng = c.eng ∨
      (c.stepRun env host disp cur (ir :: rest) cycle pc).1.eng = { c.eng with prev := some disp } := by
    unfold handler at hrun
    unfold stepRun
    simp only [hrun]
    have hsettle := settle_eq (c := c) hc hn
    rcases ctl with ⟨cycle', pc'⟩ | ⟨q, cycle', pc'⟩ | ⟨cycle', pc'⟩ | ok | _
    · simp only
      split_ifs
      · exact .inl hsettle
      · exact .inl hsettle
    · simp only
      split_ifs
      · exact .inl hsettle
      · unfold enter
        split
        · exact .inl hsettle
        · exact .inl hsettle
    · exact hgo.elim
    · cases ok with
      | false => exact hgo.elim
      | true => exact .inr (congrArg (fun e => { e with prev := some disp }) hsettle)
    · exact .inr (congrArg (fun e => { e with prev := some disp }) hsettle)
  rcases heng with heng | heng
  · rw [heng]
  · have hb : BlockMap.Backed { c.eng with prev := some disp } := ⟨h.backed.index, h.backed.l1⟩
    rw [heng, h.backed.holds_iff]
    refine (hb.holds_iff r).trans ⟨?_, ?_⟩
    · rintro (hr | hr)
      · exact .inl hr
      · obtain rfl := Option.some.inj hr
        exact .inl hdisp
    · rintro (hr | hr)
      · exact .inl hr
      · exact .inl (hprev r hr)

/-- The machine of the configuration after the handler. -/
theorem stepRun_sys (hrun : c.handler env host cur ir rest cycle pc = some (ctl, s'))
    (hgo : ctl.GoesOn ∨ ctl = .ret false) :
    (c.stepRun env host disp cur (ir :: rest) cycle pc).1.sys =
      { s' with blockMapCleared := false, prevNull := false } := by
  unfold handler at hrun
  unfold stepRun
  simp only [hrun]
  rcases ctl with ⟨cycle', pc'⟩ | ⟨q, cycle', pc'⟩ | ⟨cycle', pc'⟩ | ok | _
  · simp only
    split_ifs <;> rfl
  · simp only
    split_ifs
    · rfl
    · unfold enter
      split <;> rfl
  · rcases hgo with hgo | hgo
    · exact hgo.elim
    · cases hgo
  · cases ok <;> rfl
  · rfl

theorem stepRun_none (hrun : c.handler env host cur ir rest cycle pc = none) :
    (c.stepRun env host disp cur (ir :: rest) cycle pc).1 = { c with loc := .dead } := by
  unfold handler at hrun
  unfold stepRun
  simp only [hrun]

end SysConf

/-- None of the blocks `Old` is left. -/
def BlockMap.Free {B : Type} (e : BlockMap B) (Old : Ref → Prop) : Prop := ∀ r, Old r → ¬ e.Holds r

section Discard

variable {env : SysEnv} {host : SysHost} {c : SysConf} {disp cur : Ref} {ir : Insn} {rest : List Insn}
  {cycle : BitVec 64} {pc : Word}

theorem SysConf.Live.csr_discards (h : c.Live) (hloc : c.loc = .run disp cur (ir :: rest) cycle pc)
    (hcsr : ir.opcode.isCsr = true) (hne : (c.step env host).1.sys.cpu.csr.satp ≠ c.sys.cpu.csr.satp)
    (Old : Ref → Prop) :
    (c.step env host).1.sys.TlbsEmpty ∧
      ((c.step env host).1.eng.Free Old ↔ c.sys.ClearsMap ir ∨ c.eng.Free Old) := by
  have hstep : c.step env host = c.stepRun env host disp cur (ir :: rest) cycle pc := by
    unfold SysConf.step
    rw [hloc]
  rw [hstep] at hne ⊢
  cases hrun : c.handler env host cur ir rest cycle pc with
  | none =>
    rw [SysConf.stepRun_none hrun] at hne
    exact absurd rfl hne
  | some r =>
    obtain ⟨ctl, s'⟩ := r
    rw [SysConf.stepRun_sys hrun (sysImpl_csr_ctl hcsr hrun)] at hne ⊢
    obtain ⟨htlbs, hnull, ⟨hclears, rfl, hflag⟩ | ⟨hno, hgo, hflag⟩⟩ := sysImpl_csr hcsr hrun hne
    · refine ⟨htlbs, fun _ => .inl hclears, fun _ r _ => SysConf.stepRun_clears hrun hflag r⟩
    · have hiff := SysConf.stepRun_holds h hloc hrun hgo (hflag.trans h.notCleared) (hnull.trans h.notNull)
      refine ⟨htlbs, fun hfree => .inr fun r hr hheld => hfree r hr ((hiff r).mpr hheld), ?_⟩
      rintro (hclears | hfree)
      · exact absurd hclears hno
      · exact fun r hr hheld => hfree r hr ((hiff r).mp hheld)

/-- `SFENCE.VMA` in a block. -/
theorem SysConf.Live.sfencevma_keeps (h : c.Live) (hloc : c.loc = .run disp cur (ir :: rest) cycle pc)
    (hop : ir.opcode = .sfencevma) (Old : Ref → Prop) :
    (c.step env host).1.eng.Free Old ↔ c.eng.Free Old := by
  have hstep : c.step env host = c.stepRun env host disp cur (ir :: rest) cycle pc := by
    unfold SysConf.step
    rw [hloc]
  rw [hstep]
  cases hrun : c.handler env host cur ir rest cycle pc with
  | none => rw [SysConf.stepRun_none hrun]
  | some r =>
    obtain ⟨ctl, s'⟩ := r
    obtain ⟨hgo, hnull, hflag⟩ := sysImpl_sfencevma hop hrun
    have hiff := SysConf.stepRun_holds h hloc hrun hgo (hflag.trans h.notCleared) (hnull.trans h.notNull)
    unfold BlockMap.Free
    simp only [hiff]

variable {raise : Raise} {s s' : Sys} {ctl : SysCtl}

/-- A CSR instruction of a trap handler, which the nested interpreter runs: `prev` is not reset before
the trap handler ends. -/
theorem csr_discards_nested (c : SysConf) (hcsr : ir.opcode.isCsr = true)
    (hrun : sysImpl env raise ir {} true cycle pc s = some (ctl, s'))
    (hne : s'.cpu.csr.satp ≠ s.cpu.csr.satp) (Old : Ref → Prop) :
    s'.TlbsEmpty ∧ ((c.settle s').eng.Free Old ↔
      (s.ClearsMap ir ∧ ∀ r, Old r → (c.settle s).eng.prev ≠ some r) ∨ (c.settle s).eng.Free Old) := by
  obtain ⟨htlbs, hnull, ⟨hclears, -, hflag⟩ | ⟨hno, -, hflag⟩⟩ := sysImpl_csr hcsr hrun hne
  · have hholds : ∀ r, (c.settle s').eng.Holds r ↔ (c.settle s).eng.prev = some r := by
      intro r
      have hprev : (c.settle s').eng.prev = (c.settle s).eng.prev := by
        rw [SysConf.settle_prev, SysConf.settle_prev, hnull]
      have heng : ∃ p, (c.settle s').eng = { c.eng.blockMapClear with prev := p } := by
        unfold SysConf.settle
        simp only [hflag, if_pos]
        split_ifs
        · exact ⟨none, rfl⟩
        · exact ⟨c.eng.prev, rfl⟩
      obtain ⟨p, heng⟩ := heng
      constructor
      · rintro (h | ⟨pc, h⟩ | ⟨i, h⟩ | h)
        · rw [heng] at h
          cases h
        · rw [heng] at h
          cases h
        · rw [heng] at h
          cases h
        · exact hprev ▸ h
      · exact fun h => .prev (hprev.trans h)
    refine ⟨htlbs, fun hfree => .inl ⟨hclears, fun r hr hp => hfree r hr ((hholds r).mpr hp)⟩, ?_⟩
    rintro (⟨-, hfree⟩ | hfree)
    · exact fun r hr hheld => hfree r hr ((hholds r).mp hheld)
    · exact fun r hr hheld => hfree r hr (.prev ((hholds r).mp hheld))
  · have heng : (c.settle s').eng = (c.settle s).eng := by
      unfold SysConf.settle
      rw [hnull, hflag]
    rw [heng]
    refine ⟨htlbs, .inr, ?_⟩
    rintro (⟨hclears, -⟩ | hfree)
    · exact absurd hclears hno
    · exact hfree

theorem sfencevma_keeps_nested (c : SysConf) (hop : ir.opcode = .sfencevma)
    (hrun : sysImpl env raise ir {} true cycle pc s = some (ctl, s')) (Old : Ref → Prop) :
    (c.settle s').eng.Free Old ↔ (c.settle s).eng.Free Old := by
  obtain ⟨-, hnull, hflag⟩ := sysImpl_sfencevma hop hrun
  unfold SysConf.settle
  rw [hnull, hflag]

end Discard

/-- **What a change of the address space leaves.** `Old` is any set of blocks: those translated under the
old `satp`, or through the mapping that is given up. In a block and in a nested trap handler alike, a CSR
instruction that changes `satp` leaves the TLBs empty. The blocks are gone if it clears the block map, and
in a trap handler `prev` is one of them still; otherwise, and behind `SFENCE.VMA`, there are as many as
before. -/
theorem address_space_discarded (env : SysEnv) (host : SysHost) {s₀ : Sys} (hc : s₀.blockMapCleared = false)
    (hn : s₀.prevNull = false) (n : Nat) (Old : Ref → Prop) :
    (∀ disp cur ir rest cycle pc,
      (SysConf.run env host { sys := s₀ } n).loc = .run disp cur (ir :: rest) cycle pc →
        (ir.opcode.isCsr = true →
          (SysConf.run env host { sys := s₀ } (n + 1)).sys.cpu.csr.satp ≠
              (SysConf.run env host { sys := s₀ } n).sys.cpu.csr.satp →
            (SysConf.run env host { sys := s₀ } (n + 1)).sys.TlbsEmpty ∧
              ((SysConf.run env host { sys := s₀ } (n + 1)).eng.Free Old ↔
                (SysConf.run env host { sys := s₀ } n).sys.ClearsMap ir ∨
                  (SysConf.run env host { sys := s₀ } n).eng.Free Old)) ∧
        (ir.opcode = .sfencevma →
          ((SysConf.run env host { sys := s₀ } (n + 1)).eng.Free Old ↔
            (SysConf.run env host { sys := s₀ } n).eng.Free Old))) ∧
    ∀ c raise ir cycle pc s ctl s', sysImpl env raise ir {} true cycle pc s = some (ctl, s') →
      (ir.opcode.isCsr = true → s'.cpu.csr.satp ≠ s.cpu.csr.satp →
        s'.TlbsEmpty ∧ ((SysConf.settle c s').eng.Free Old ↔
          (s.ClearsMap ir ∧ ∀ r, Old r → (SysConf.settle c s).eng.prev ≠ some r) ∨
            (SysConf.settle c s).eng.Free Old)) ∧
      (ir.opcode = .sfencevma → ((SysConf.settle c s').eng.Free Old ↔ (SysConf.settle c s).eng.Free Old)) := by
  have hlive := SysConf.run_live env host hc hn n
  refine ⟨fun disp cur ir rest cycle pc hloc => ⟨fun hcsr hne => ?_, fun hop => ?_⟩, ?_⟩
  · exact hlive.csr_discards hloc hcsr hne Old
  · exact hlive.sfencevma_keeps hloc hop Old
  · intro c raise ir cycle pc s ctl s' hrun
    exact ⟨fun hcsr hne => csr_discards_nested c hcsr hrun hne Old,
      fun hop => sfencevma_keeps_nested c hop hrun Old⟩

deriving instance DecidableEq for Loc

/-- A machine whose first instruction is `insn`, with 1 in `a0`. -/
def switching (insn : Word) : Sys where
  cpu := { Cpu.zero (Mem.writeW (fun _ => 0) 0 insn) with X := fun r => if r = 10 then 1 else 0 }

/-- `csrrw x0, satp, a0`. -/
def csrrwNode : Insn := { opcode := .csrrw, rs1 := 10, imm := 0x180 }

theorem address_space_discarded_csrrw :
    (SysConf.run deviceless roomySysHost { sys := switching 0x18051073 } 2).loc = .run 0 0 [csrrwNode] 0 0 ∧
      (SysConf.run deviceless roomySysHost { sys := switching 0x18051073 } 3).sys.cpu.csr.satp ≠
        (SysConf.run deviceless roomySysHost { sys := switching 0x18051073 } 2).sys.cpu.csr.satp ∧
      (SysConf.run deviceless roomySysHost { sys := switching 0x18051073 } 3).eng.Free fun _ => True := by
  have hloc : (SysConf.run deviceless roomySysHost { sys := switching 0x18051073 } 2).loc =
      .run 0 0 [csrrwNode] 0 0 := by decide +kernel
  have hne : (SysConf.run deviceless roomySysHost { sys := switching 0x18051073 } 3).sys.cpu.csr.satp ≠
      (SysConf.run deviceless roomySysHost { sys := switching 0x18051073 } 2).sys.cpu.csr.satp := by
    decide +kernel
  have hclears : (SysConf.run deviceless roomySysHost { sys := switching 0x18051073 } 2).sys.ClearsMap
      csrrwNode := ⟨by decide +kernel, .inl rfl⟩
  have hcleared : (switching 0x18051073).blockMapCleared = false := rfl
  obtain ⟨hcsr, -⟩ := (address_space_discarded deviceless roomySysHost hcleared rfl 2
    fun _ => True).1 0 0 csrrwNode [] 0 0 hloc
  exact ⟨hloc, hne, (hcsr rfl hne).2.mpr (.inl hclears)⟩

/-- `csrrs x0, satp, a0`. -/
def csrrsNode : Insn := { opcode := .csrrs, rs1 := 10, imm := 0x180 }

/-- `csrrs` turns the MMU on. The block that has been translated with the MMU off is still in the block map
and the L1 cache, and it becomes `prev`. -/
theorem csrrs_keeps_old_block :
    (SysConf.run deviceless roomySysHost { sys := switching 0x18052073 } 1).sys.cpu.csr.satp = 0 ∧
      ((SysConf.run deviceless roomySysHost { sys := switching 0x18052073 } 1).eng.block 0).isNone ∧
      (SysConf.run deviceless roomySysHost { sys := switching 0x18052073 } 2).loc = .run 0 0 [csrrsNode] 0 0 ∧
      (SysConf.run deviceless roomySysHost { sys := switching 0x18052073 } 2).sys.cpu.csr.satp = 0 ∧
      (SysConf.run deviceless roomySysHost { sys := switching 0x18052073 } 3).sys.cpu.csr.satp = 1 ∧
      (SysConf.run deviceless roomySysHost { sys := switching 0x18052073 } 3).eng.index 0 = some 0 ∧
      ((SysConf.run deviceless roomySysHost { sys := switching 0x18052073 } 3).eng.l1 0) = (0, some 0) ∧
      (SysConf.run deviceless roomySysHost { sys := switching 0x18052073 } 3).eng.prev = some 0 ∧
      ¬ (SysConf.run deviceless roomySysHost { sys := switching 0x18052073 } 3).eng.Free (· = 0) := by
  have hprev : (SysConf.run deviceless roomySysHost { sys := switching 0x18052073 } 3).eng.prev = some 0 := by
    decide +kernel
  refine ⟨by decide +kernel, by decide +kernel, by decide +kernel, by decide +kernel, by decide +kernel,
    by decide +kernel, by decide +kernel, hprev, fun hfree => ?_⟩
  exact hfree 0 rfl (.prev hprev)

end Rv32emu
