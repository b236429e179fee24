import Rv32emu.CacheHistory
import Rv32emu.Recency

/-!
# What the block cache evicts

The entries of `list` stand in the order in which they were placed (`Placed`), and `cache_put` takes the last one:
the cache is first-in, first-out. The comment at the top of `cache.c` says least recently used. A hit of
`cache_get` does not move its entry, so `evictsLru_iff`: the victim is the entry used longest ago exactly if it
was not used after any other alive entry was.
-/

namespace Rv32emu

/-! ## Uses and places -/

namespace CacheEvent

variable {V : Type}

/-- The entry is put, or an updating lookup finds it. -/
def isUse (p : EntryPtr) : CacheEvent V → Bool
  | .put q .. | .hit q => q = p
  | _ => false

def isPlace (p : EntryPtr) : CacheEvent V → Bool
  | .put q .. | .restored q => q = p
  | _ => false

def isRestored : CacheEvent V → Bool
  | .restored _ => true
  | _ => false

end CacheEvent

open CacheEvent

variable {V : Type}

/-- Every other alive entry has been used later. -/
def Cache.LeastRecentlyUsed (c : Cache V) (log : CacheLog V) (p : EntryPtr) : Prop :=
  ∀ q ∈ c.list, q ≠ p → ago (isUse q) log < ago (isUse p) log

/-- Every other alive entry has been placed later. -/
def Cache.FirstPlaced (c : Cache V) (log : CacheLog V) (p : EntryPtr) : Prop :=
  p ∈ c.list ∧ ∀ q ∈ c.list, q ≠ p → ago (isPlace q) log < ago (isPlace p) log

/-! ## The list is in the order of the places -/

def Placed (c : Cache V) (log : CacheLog V) : Prop :=
  c.list.Pairwise fun p q => ago (isPlace p) log < ago (isPlace q) log

namespace Placed

variable {c c' : Cache V} {log : CacheLog V} {p : EntryPtr} {e : CacheEntry V} {key : Word} {value : V}

theorem log_cons (h : Placed c log) (ev : CacheEvent V) (hev : ∀ q, ev.isPlace q = false) : Placed c (ev :: log) :=
  h.imp fun hlt => by
    rw [ago_cons_of_neg (hev _), ago_cons_of_neg (hev _)]
    exact Nat.succ_lt_succ hlt

theorem of_sublist (h : Placed c log) (c' : Cache V) (hsub : c'.list.Sublist c.list) : Placed c' log := h.sublist hsub

theorem place {ev : CacheEvent V} (h : Placed c log) (hp : p ∉ c.list) (hev : ∀ q, ev.isPlace q = decide (p = q))
    (hlist : c'.list = p :: c.list) : Placed c' (ev :: log) := by
  have hother : ∀ q ∈ c.list, ev.isPlace q = false := fun q hq => by
    rw [hev]
    exact decide_eq_false (ne_of_mem_of_not_mem hq hp).symm
  rw [Placed, hlist]
  refine List.pairwise_cons.mpr ⟨fun q hq => ?_, ?_⟩
  · rw [ago_cons_of_pos (by rw [hev]; exact decide_eq_true rfl), ago_cons_of_neg (hother q hq)]
    exact Nat.succ_pos _
  · refine h.imp_of_mem fun {q r} hq hr hlt => ?_
    rw [ago_cons_of_neg (hother q hq), ago_cons_of_neg (hother r hr)]
    exact Nat.succ_lt_succ hlt

theorem putNew {found : Cache.Found} {w : Word} (h : Placed c log) (hwf : c.Wf)
    (hput : c.putNew found key value = some c') : Placed c' (.put c.fresh key value w :: log) := by
  obtain ⟨-, c₁, hadd, hghost⟩ := Cache.putNew_cases hput
  have hfresh : c.fresh ∉ c.list := fun hmem => by
    rw [hwf.mem_list, hwf.fresh c.fresh le_rfl] at hmem
    cases hmem
  have h₁ : Placed c₁ (.put c.fresh key value w :: log) := by
    obtain ⟨-, rfl⟩ | ⟨q, e, -, -, rfl⟩ := Cache.addFound_cases hadd
    · exact h.place hfresh (fun _ => rfl) rfl
    · exact (h.of_sublist (c.drop q) List.erase_sublist).place
        (fun hmem => hfresh (List.mem_of_mem_erase hmem)) (fun _ => rfl) rfl
  obtain rfl | ⟨q, e, -, -, rfl⟩ := hghost
  · exact h₁
  · exact h₁.of_sublist _ List.erase_sublist

theorem cachePut [DecidableEq V] (h : Placed c log) (hwf : c.Wf) {alloc : Bool} {r : Option V}
    (hput : c.cachePut key value alloc = some (r, c')) : Placed c' (c.events (.put key value alloc) ++ log) := by
  obtain ⟨found, -, hcases⟩ := Cache.cachePut_cases hput
  obtain ⟨htakes, -, -, ⟨rfl, rfl⟩ | ⟨rfl, hnew⟩⟩ | ⟨p, e, htakes, -, hp, ha, hcases⟩ := hcases
  · simpa [Cache.events, htakes] using h
  · simpa [Cache.events, htakes] using h.putNew hwf hnew
  · have hretire : Placed (c.retire p e) log := h.of_sublist _ List.erase_sublist
    obtain ⟨rfl, -, rfl⟩ | ⟨rfl, -, hnew⟩ := hcases
    · rw [Cache.events, htakes, hwf.retire_restore hp ha]
      exact hretire.place (fun hmem => (hwf.list_nodup.mem_erase_iff.mp hmem).1 rfl) (fun _ => rfl) rfl
    · rw [Cache.events, htakes]
      exact (hretire.log_cons (.taken p e.value) fun _ => rfl).putNew (hwf.retire hp ha) hnew

theorem cacheGet [DecidableEq V] (h : Placed c log) (update : Bool) :
    Placed (c.cacheGet key update).2 (c.events (.get key update) ++ log) := by
  cases hfirst : c.firstOf key (c.bucket (c.hash key)) with
  | none => cases update <;> simpa [Cache.cacheGet, Cache.events, hfirst] using h
  | some r =>
    cases halive : r.2.alive with
    | false => cases update <;> simpa [Cache.cacheGet, Cache.events, hfirst, halive] using h
    | true =>
      cases update with
      | false => simpa [Cache.cacheGet, Cache.events, hfirst, halive] using h
      | true =>
        simpa [Cache.cacheGet, Cache.events, hfirst, halive] using
          (h.log_cons (.hit r.1) fun _ => rfl).of_sublist (c.setEntry r.1 { r.2 with freq := r.2.freq + 1 }) (.refl _)

theorem run [DecidableEq V] {ops : List (CacheOp V)} (h : Placed c log) (hlog : Logged c log)
    (hrun : cacheRun ops c = some c') : Placed c' (cacheLog ops c log) := by
  induction ops generalizing c log with
  | nil =>
    cases hrun
    exact h
  | cons op ops ih =>
    cases op with
    | put key value alloc =>
      obtain ⟨r, hput, hrun⟩ := Option.bind_eq_some_iff.mp hrun
      simp only [cacheLog, hput]
      exact ih (h.cachePut hlog.toWf hput) (hlog.cachePut hput) hrun
    | get key update => exact ih (h.cacheGet update) (hlog.cacheGet update) hrun

theorem firstPlaced (h : Placed c log) (hp : c.list.getLast? = some p) : c.FirstPlaced log p := by
  obtain ⟨l, hl⟩ := List.getLast?_eq_some_iff.mp hp
  refine ⟨by rw [hl]; exact List.mem_append_right _ (List.mem_singleton_self p), fun q hq hne => ?_⟩
  rw [Placed, hl, List.pairwise_append] at h
  rw [hl, List.mem_append, List.mem_singleton] at hq
  exact h.2.2 q (hq.resolve_right hne) p (List.mem_singleton_self p)

end Placed

/-! ## Uses since -/

section Uses

variable {c : Cache V} {log : CacheLog V} {p : EntryPtr}

theorem Logged.used (h : Logged c log) (hp : p ∈ c.list) : ∃ ev ∈ log, ev.isUse p = true := by
  obtain ⟨e, he, -⟩ := Option.map_eq_some_iff.mp ((h.mem_list p).mp hp)
  obtain ⟨w, hput, -⟩ := h.made p e he
  exact ⟨_, hput, decide_eq_true rfl⟩

theorem isUse_disjoint {q : EntryPtr} (hne : q ≠ p) (ev : CacheEvent V) (hq : ev.isUse q = true) :
    ev.isUse p = false := by
  cases ev with
  | put r _ _ _ | hit r =>
    obtain rfl : r = q := of_decide_eq_true hq
    exact decide_eq_false hne
  | taken | restored => rfl

/-- The last use of another entry is later exactly if the entry has not been used since. -/
theorem Logged.leastRecentlyUsed_iff (h : Logged c log) :
    c.LeastRecentlyUsed log p ↔ ∀ q ∈ c.list, q ≠ p → ∀ ev ∈ since (isUse q) log, ev.isUse p = false :=
  forall_congr' fun _ => forall_congr' fun hq => forall_congr' fun hne =>
    ago_lt_iff (fun ev _ => isUse_disjoint hne ev) (h.used hq)

/-- Where no allocation has failed, the entry placed first has not been put since. -/
theorem Cache.FirstPlaced.not_put_since (h : c.FirstPlaced log p) (hrestored : ∀ ev ∈ log, ev.isRestored = false)
    {q : EntryPtr} (hq : q ∈ c.list) (hne : q ≠ p) (hused : ∃ ev ∈ log, ev.isUse q = true) :
    ∀ ev ∈ since (isUse q) log, ev.isPlace p = false := by
  have hdisj : ∀ ev ∈ log, ev.isUse q = true → ev.isPlace p = false := fun ev hev hq => by
    cases ev with
    | put r _ _ _ =>
      obtain rfl : r = q := of_decide_eq_true hq
      exact decide_eq_false hne
    | taken | hit => rfl
    | restored => cases hq
  refine (ago_lt_iff hdisj hused).mp (lt_of_le_of_lt (ago_mono fun ev hev hplace => ?_) (h.2 q hq hne))
  cases ev with
  | put => exact hplace
  | restored => cases hrestored _ hev
  | taken | hit => cases hplace

end Uses

/-! ## The victim -/

section Victim

variable [DecidableEq V] {c₀ c c' : Cache V} {log : CacheLog V} {key : Word} {ops : List (CacheOp V)}

/-- A `cache_put` that takes out an entry takes out the one used longest ago. -/
def Cache.EvictsLru (c : Cache V) (log : CacheLog V) (key : Word) (value : V) : Prop :=
  ∀ p v, .taken p v ∈ c.events (.put key value true) → c.LeastRecentlyUsed log p

theorem Cache.Wf.not_replaced (h : c.Wf) (hnew : (c.cacheGet key false).1 = none) {value : V} {found : Cache.Found}
    (hfind : c.findPut key value (c.bucket (c.hash key)) = some found) (q : EntryPtr) : found ≠ .replaced q := by
  rintro rfl
  rw [Cache.findPut_eq key value (h.bucket_entry _)] at hfind
  unfold Cache.cacheGet at hnew
  cases hfirst : c.firstOf key (c.bucket (c.hash key)) with
  | none =>
    rw [hfirst] at hfind
    cases hfind
  | some r =>
    simp only [hfirst] at hfind hnew
    split_ifs at hfind hnew
    cases hfind

/-- **The victim is the entry placed first.** -/
theorem Cache.Bounded.evicts (hb : c.Bounded) (hlog : Logged c log) (hplaced : Placed c log)
    (hfull : c.size = c.capacity) (hnew : (c.cacheGet key false).1 = none) (value : V) :
    ∃ p e c', c.entry p = some e ∧ e.alive = true ∧ c.FirstPlaced log p ∧
      c.events (.put key value true) = [.put c.fresh key value (c.inherited key), .taken p e.value] ∧
      c.cachePut key value true = some (some e.value, c') := by
  cases hput : c.cachePut key value true with
  | none =>
    rw [(hb.cachePut_eq_none hlog.toWf key value true).mp hput] at hnew
    cases hnew
  | some r =>
    obtain ⟨found, hfind, hcases⟩ := Cache.cachePut_cases hput
    have hvictim : c.victim found = c.list.getLast?.map some := by
      cases found with
      | replaced q => exact absurd rfl (hlog.not_replaced hnew hfind q)
      | nothing | revived => exact if_pos hfull
    obtain ⟨-, hnone, -⟩ | ⟨p, e, htakes, hsome, hp, ha, ⟨hfalse, -⟩ | ⟨-, hr, -⟩⟩ := hcases
    · rw [hvictim] at hnone
      obtain ⟨q, -, hq⟩ := Option.map_eq_some_iff.mp hnone
      cases hq
    · cases hfalse
    · rw [hvictim] at hsome
      obtain ⟨q, hq, heq⟩ := Option.map_eq_some_iff.mp hsome
      cases heq
      refine ⟨p, e, r.2, hp, ha, hplaced.firstPlaced hq, by rw [Cache.events, htakes]; rfl, ?_⟩
      rw [← hr]

/-- The calls of `cache_put` get their memory. -/
def CacheOp.allocates : CacheOp V → Bool
  | .put _ _ alloc => alloc
  | .get _ _ => true

theorem events_not_restored (c : Cache V) {op : CacheOp V} (h : op.allocates = true) :
    ∀ ev ∈ c.events op, ev.isRestored = false := by
  cases op with
  | put key value alloc =>
    cases h
    cases htakes : c.takes key value <;> simp [Cache.events, htakes, isRestored]
  | get key update =>
    cases update with
    | false => simp [Cache.events]
    | true =>
      simp only [Cache.events]
      split
      · split_ifs <;> simp [isRestored]
      · simp

theorem cacheLog_not_restored (hops : ∀ op ∈ ops, op.allocates = true) (hlog : ∀ ev ∈ log, ev.isRestored = false) :
    ∀ ev ∈ cacheLog ops c log, ev.isRestored = false := by
  induction ops generalizing c log with
  | nil => exact hlog
  | cons op ops ih =>
    obtain ⟨hop, hrest⟩ := List.forall_mem_cons.mp hops
    have hnext := List.forall_mem_append.mpr ⟨events_not_restored c hop, hlog⟩
    cases op with
    | put key value alloc =>
      unfold cacheLog
      split
      · exact hlog
      · exact ih hrest hnext
    | get key update => exact ih hrest hnext

/-- **Least recently used is evicted exactly if the entry placed first was not used after another one was.** -/
theorem evictsLru_iff (system : Bool) (bits : Nat) (hc : cacheCreate V system bits = some c₀)
    (hrun : cacheRun ops c₀ = some c) (hfull : c.size = c.capacity) (hnew : (c.cacheGet key false).1 = none)
    (value : V) :
    ∃ p e c', c.entry p = some e ∧ c.FirstPlaced (cacheLog ops c₀ []) p ∧
      c.cachePut key value true = some (some e.value, c') ∧ (c'.cacheGet e.key false).1 = none ∧
      (c.EvictsLru (cacheLog ops c₀ []) key value ↔
        ∀ q ∈ c.list, q ≠ p → ∀ ev ∈ since (isUse q) (cacheLog ops c₀ []), ev.isUse p = false) ∧
      ((∀ op ∈ ops, op.allocates = true) → (c.EvictsLru (cacheLog ops c₀ []) key value ↔
        ∀ q ∈ c.list, q ≠ p → .hit p ∉ since (isUse q) (cacheLog ops c₀ []))) := by
  have hlog := (Logged.create hc).run hrun
  have hb := (Cache.Bounded.create hc).run (Logged.create hc) hrun
  have hplaced : Placed c (cacheLog ops c₀ []) := by
    refine Placed.run ?_ (Logged.create hc) hrun
    unfold cacheCreate at hc
    split_ifs at hc
    cases hc
    exact .nil
  obtain ⟨p, e, c', hp, ha, hfirst, hevents, hput⟩ := hb.evicts hlog hplaced hfull hnew value
  have hkey : key ≠ e.key := by
    rintro rfl
    rw [(hlog.toWf.cacheGet_iff e.key false e.value).mpr ⟨p, e, hp, ha, rfl, rfl⟩] at hnew
    cases hnew
  have hlru : c.EvictsLru (cacheLog ops c₀ []) key value ↔ c.LeastRecentlyUsed (cacheLog ops c₀ []) p := by
    rw [Cache.EvictsLru, hevents]
    exact ⟨fun h => h p e.value (by simp), fun h q v hq => by simp at hq; exact hq.1 ▸ h⟩
  refine ⟨p, e, c', hp, hfirst, hput, ?_, hlru.trans hlog.leastRecentlyUsed_iff, fun hops => ?_⟩
  · obtain ⟨w, hlast, -⟩ := hlog.lastPut_of_alive hp ha
    rw [(hlog.cachePut hput).cacheGet_eq, hevents]
    simp only [CacheLog.lastPut, CacheLog.gone, List.cons_append, List.nil_append, List.findSome?_cons, if_neg hkey]
      at hlast ⊢
    rw [hlast, Option.bind_some]
    exact if_pos (by simp [takenPtr, List.filterMap_cons])
  · rw [hlru, hlog.leastRecentlyUsed_iff]
    refine forall_congr' fun q => forall_congr' fun hq => forall_congr' fun hne => ?_
    have hput' := hfirst.not_put_since (cacheLog_not_restored hops (fun ev hev => absurd hev List.not_mem_nil)) hq
      hne (hlog.used hq)
    constructor
    · intro h hhit
      have huse := h _ hhit
      simp [isUse] at huse
    · intro h ev hev
      cases ev with
      | put r k v w => exact hput' _ hev
      | hit r => exact decide_eq_false fun hr => h (hr ▸ hev)
      | taken | restored => rfl

def lookedUp (key : Word) : List (CacheOp Nat) := [.put 1 10 true, .put 2 20 true, .get key true]

/-- The second block is looked up: the first goes. -/
theorem evictsLru_iff_second :
    ∃ c, cacheRun (lookedUp 2) twoBlocks = some c ∧ c.EvictsLru (cacheLog (lookedUp 2) twoBlocks []) 3 30 := by
  have hsome : (cacheRun (lookedUp 2) twoBlocks).map
      (fun c => (c.size, c.capacity, (c.cacheGet 3 false).1, c.list)) = some (2, 2, none, [1, 0]) := by decide
  have hlog : cacheLog (lookedUp 2) twoBlocks [] = [.hit 1, .put 1 2 20 0, .put 0 1 10 0] := by decide
  obtain ⟨c, hrun, hc⟩ := Option.map_eq_some_iff.mp hsome
  simp only [Prod.mk.injEq] at hc
  obtain ⟨hsize, hcap, hnew, hlist⟩ := hc
  have hcreate : cacheCreate Nat false 1 = some twoBlocks := rfl
  obtain ⟨p, e, c', -, hfirst, -, -, -, hiff⟩ := evictsLru_iff false 1 hcreate hrun (hsize.trans hcap.symm) hnew 30
  refine ⟨c, hrun, (hiff (by decide)).mpr ?_⟩
  rw [Cache.FirstPlaced, hlist, hlog] at hfirst
  rw [hlist, hlog]
  obtain ⟨hmem, hplace⟩ := hfirst
  obtain rfl | hmem := List.mem_cons.mp hmem
  · exact absurd (hplace 0 (by decide) (by decide)) (by decide)
  · obtain rfl := List.mem_singleton.mp hmem
    decide

/-- The first block is looked up, and goes all the same. -/
theorem evicts_hot_block :
    ∃ c, cacheRun (lookedUp 1) twoBlocks = some c ∧ c.size = c.capacity ∧ (c.cacheGet 3 false).1 = none ∧
      (c.cachePut 3 30 true).map Prod.fst = some (some 10) ∧
      ¬ c.EvictsLru (cacheLog (lookedUp 1) twoBlocks []) 3 30 := by
  have hsome : (cacheRun (lookedUp 1) twoBlocks).map (fun c => (c.size, c.capacity, (c.cacheGet 3 false).1,
      (c.cachePut 3 30 true).map Prod.fst)) = some (2, 2, none, some (some 10)) := by decide
  have hvictim : (cacheRun (lookedUp 1) twoBlocks).map (fun c => (c.list, c.events (.put 3 30 true))) =
      some ([1, 0], [.put 2 3 30 0, .taken 0 10]) := by decide
  have hlog : cacheLog (lookedUp 1) twoBlocks [] = [.hit 0, .put 1 2 20 0, .put 0 1 10 0] := by decide
  obtain ⟨c, hrun, hc⟩ := Option.map_eq_some_iff.mp hsome
  simp only [Prod.mk.injEq] at hc
  obtain ⟨hsize, hcap, hnew, hput⟩ := hc
  rw [hrun, Option.map_some, Option.some.injEq, Prod.mk.injEq] at hvictim
  obtain ⟨hlist, hevents⟩ := hvictim
  refine ⟨c, hrun, hsize.trans hcap.symm, hnew, hput, fun hlru => ?_⟩
  have hlast := hlru 0 10 (by rw [hevents]; decide) 1 (by rw [hlist]; decide) (by decide)
  rw [hlog] at hlast
  exact absurd hlast (by decide)

end Victim

end Rv32emu
