import Rv32emu.CacheLog

/-!
# The block cache as a store with a history

`cacheRun_history`: after every sequence of calls `cache_get` finds the value last put under the key,
unless that put has been reported since. A put is reported at most once, and it is reported or it can be
found. The frequency of a key counts its updating lookups on top of what it took over from a ghost.

`cacheRun_history` speaks of puts, since two of them may have the same value; where no value is put twice
(every block is translated into memory of its own), it speaks of the values. A call fails only if the key has
the value already (`cachePut_eq_none`).
-/

namespace Rv32emu

variable {V : Type}

/-- The entry, the value and the inherited frequency of the last put of a key. -/
def CacheLog.lastPut (key : Word) (log : CacheLog V) : Option (EntryPtr × V × Word) :=
  log.findSome? fun
    | .put p k v w => if k = key then some (p, v, w) else none
    | _ => none

def CacheLog.gone (log : CacheLog V) : List EntryPtr := log.filterMap CacheEvent.takenPtr

namespace Cache

variable {c c' : Cache V} {p : EntryPtr} {e : CacheEntry V} {key : Word} {value : V}

/-! ## The bounds -/

structure Bounded (c : Cache V) : Prop where
  pos : 0 < c.capacity
  size_le : c.size ≤ c.capacity
  ghost_le : c.ghostListSize ≤ c.capacity

theorem Bounded.create {system : Bool} {bits : Nat} (h : cacheCreate V system bits = some c) : c.Bounded := by
  unfold cacheCreate at h
  split_ifs at h
  cases h
  exact ⟨Nat.two_pow_pos bits, Nat.zero_le _, Nat.zero_le _⟩

theorem Bounded.cacheGet (h : c.Bounded) (hwf : c.Wf) (update : Bool) : (c.cacheGet key update).2.Bounded := by
  obtain ⟨-, hsize, hghost, hcap, -⟩ := hwf.cacheGet key update
  exact ⟨by rw [hcap]; exact h.pos, by rw [hsize, hcap]; exact h.size_le, by rw [hghost, hcap]; exact h.ghost_le⟩

theorem Bounded.cachePut [DecidableEq V] (h : c.Bounded) (hwf : c.Wf) {alloc : Bool} {r : Option V}
    (hput : c.cachePut key value alloc = some (r, c')) : c'.Bounded := by
  obtain ⟨found, hfind, -⟩ := cachePut_cases hput
  obtain ⟨r', c'', hput', -, hsize, hghost, hcap, -⟩ :=
    cachePut_found hwf h.pos h.size_le h.ghost_le hfind alloc
  rw [hput] at hput'
  cases hput'
  exact ⟨by rw [hcap]; exact h.pos, hsize, hghost⟩

theorem Bounded.run [DecidableEq V] {ops : List (CacheOp V)} {log : CacheLog V} (h : c.Bounded) (hlog : Logged c log)
    (hrun : cacheRun ops c = some c') : c'.Bounded := by
  induction ops generalizing c log with
  | nil =>
    cases hrun
    exact h
  | cons op ops ih =>
    cases op with
    | put key value alloc =>
      obtain ⟨r, hput, hrun⟩ := Option.bind_eq_some_iff.mp hrun
      exact ih (h.cachePut hlog.toWf hput) (hlog.cachePut hput) hrun
    | get key update => exact ih (h.cacheGet hlog.toWf update) (hlog.cacheGet update) hrun

/-- **`cache_put` fails only if the key has the value already.** -/
theorem Bounded.cachePut_eq_none [DecidableEq V] (h : c.Bounded) (hwf : c.Wf) (key : Word) (value : V) (alloc : Bool) :
    c.cachePut key value alloc = none ↔ (c.cacheGet key false).1 = some value := by
  have hfind : c.findPut key value (c.bucket (c.hash key)) = none ↔ (c.cacheGet key false).1 = some value := by
    rw [findPut_eq key value (hwf.bucket_entry _), Cache.cacheGet]
    cases c.firstOf key (c.bucket (c.hash key)) with
    | none => simp
    | some r => cases halive : r.2.alive <;> simp [halive]
  rw [← hfind]
  constructor
  · intro hput
    cases hfound : c.findPut key value (c.bucket (c.hash key)) with
    | none => rfl
    | some found =>
      obtain ⟨r, c', hsome, -⟩ := cachePut_found hwf h.pos h.size_le h.ghost_le hfound alloc
      rw [hput] at hsome
      cases hsome
  · intro hnone
    simp [Cache.cachePut, hnone]

/-- `cache_freq` reads the alive entry. -/
theorem Wf.cacheFreq_eq (h : c.Wf) (hp : c.entry p = some e) (ha : e.alive = true) :
    c.cacheFreq e.key = e.freq := by
  have hone : ∀ q ∈ c.bucket (c.hash e.key), ∀ f,
      ((c.entry q).bind fun d => if d.key = e.key ∧ d.alive = true then some d.freq else none) = some f →
        f = e.freq := by
    intro q hq f hf
    obtain ⟨d, hd, hf⟩ := Option.bind_eq_some_iff.mp hf
    split_ifs at hf with hlive
    cases hf
    by_cases hqp : q = p
    · rw [hqp, hp] at hd
      cases hd
      rfl
    · have hsub := h.alive_first hp hd ha hlive.1.symm (Ne.symm hqp)
      have hghost := List.pairwise_iff_forall_sublist.mp (h.order _) hsub e d hp hd hlive.1.symm
      rw [hlive.2] at hghost
      cases hghost
  unfold cacheFreq
  cases hfind : (c.bucket (c.hash e.key)).findSome? fun p =>
      (c.entry p).bind fun d => if d.key = e.key ∧ d.alive = true then some d.freq else none with
  | none =>
    have hnone := List.findSome?_eq_none_iff.mp hfind p (h.mem_own_bucket hp)
    simp [hp, ha] at hnone
  | some f =>
    obtain ⟨q, hq, hf⟩ := List.exists_of_findSome?_eq_some hfind
    exact hone q hq f hf

end Cache

/-! ## The last put of a key -/

section LastPut

variable {c : Cache V} {log : CacheLog V} {p : EntryPtr} {e : CacheEntry V} {key : Word}

theorem CacheLog.mem_gone : p ∈ log.gone ↔ ∃ v, CacheEvent.taken p v ∈ log := by
  constructor
  · intro hmem
    obtain ⟨ev, hev, hptr⟩ := List.mem_filterMap.mp hmem
    cases ev with
    | taken q v =>
      cases hptr
      exact ⟨v, hev⟩
    | put | hit | restored => cases hptr
  · rintro ⟨v, hv⟩
    exact List.mem_filterMap.mpr ⟨_, hv, rfl⟩

theorem CacheLog.lastPut_mem {v : V} {w : Word} (h : log.lastPut key = some (p, v, w)) : .put p key v w ∈ log := by
  obtain ⟨ev, hev, hput⟩ := List.exists_of_findSome?_eq_some h
  cases ev with
  | put q k v' w' =>
    simp only at hput
    split_ifs at hput with hk
    cases hput
    exact hk ▸ hev
  | taken | hit | restored => cases hput

theorem CacheLog.lastPut_none (h : log.lastPut key = none) (p : EntryPtr) (v : V) (w : Word) :
    .put p key v w ∉ log := by
  intro hput
  have hnone := List.findSome?_eq_none_iff.mp h _ hput
  simp at hnone

/-- An entry that can be found is the last one put under its key. -/
theorem Logged.lastPut_of_alive (h : Logged c log) (hp : c.entry p = some e) (ha : e.alive = true) :
    ∃ w, log.lastPut e.key = some (p, e.value, w) ∧
      e.freq = 1 + w + BitVec.ofNat 32 (log.countP (CacheEvent.isHit p)) := by
  obtain ⟨w, hput, hfreq⟩ := h.made p e hp
  refine ⟨w, ?_, hfreq⟩
  cases hlast : log.lastPut e.key with
  | none => exact absurd hput (CacheLog.lastPut_none hlast p e.value w)
  | some r =>
    obtain ⟨q, v, w'⟩ := r
    have hmem := CacheLog.lastPut_mem hlast
    have hle := h.last p e hp ha q v w' hmem
    -- the newest event of the key is not older than the put of `p`
    have hge : p ≤ q := by
      have hdesc := List.pairwise_filterMap.mp h.put_desc
      obtain ⟨l₁, ev, l₂, hlog, hev, hnone⟩ := List.findSome?_eq_some_iff.mp hlast
      have hq : CacheEvent.putPtr ev = some q := by
        cases ev with
        | put q' k v' w'' =>
          simp only at hev
          split_ifs at hev
          cases hev
          rfl
        | taken | hit | restored => cases hev
      rw [hlog, List.mem_append, List.mem_cons] at hput
      obtain hput | rfl | hput := hput
      · have hbefore := hnone _ hput
        simp at hbefore
      · cases hq
        exact le_rfl
      · rw [hlog, List.pairwise_append] at hdesc
        exact ((List.pairwise_cons.mp hdesc.2.1).1 _ hput q hq p rfl).le
    obtain rfl := le_antisymm hle hge
    obtain ⟨-, rfl, rfl⟩ := h.put_unique hput hmem
    rfl

/-- **What `cache_get` finds.** -/
theorem Logged.cacheGet_eq (h : Logged c log) (key : Word) (update : Bool) :
    (c.cacheGet key update).1 =
      (log.lastPut key).bind fun r => if r.1 ∈ log.gone then none else some r.2.1 := by
  refine Option.ext fun v => ?_
  rw [h.toWf.cacheGet_iff]
  constructor
  · rintro ⟨p, e, hp, ha, rfl, rfl⟩
    obtain ⟨w, hlast, -⟩ := h.lastPut_of_alive hp ha
    have hnot : p ∉ log.gone := fun hgone => by
      obtain ⟨v, hv⟩ := CacheLog.mem_gone.mp hgone
      exact (h.taken_put p v hv).1 (h.alive_mem hp ha)
    rw [hlast, Option.bind_some, if_neg hnot]
  · intro hv
    obtain ⟨⟨p, v', w⟩, hlast, hv⟩ := Option.bind_eq_some_iff.mp hv
    split_ifs at hv with hgone
    cases hv
    have hput := CacheLog.lastPut_mem hlast
    obtain hmem | htaken := h.gone p key v' w hput
    · obtain ⟨e, he, ha⟩ := Option.map_eq_some_iff.mp ((h.mem_list p).mp hmem)
      obtain ⟨w', hput', -⟩ := h.made p e he
      obtain ⟨rfl, rfl, -⟩ := h.put_unique hput hput'
      exact ⟨p, e, he, ha, rfl, rfl⟩
    · exact absurd (CacheLog.mem_gone.mpr ⟨v', htaken⟩) hgone

theorem CacheLog.find_putValue (log : CacheLog V) (key : Word) :
    (log.filterMap CacheEvent.putValue).find? (fun r => r.1 = key) = (log.lastPut key).map fun r => (key, r.2.1) := by
  induction log with
  | nil => rfl
  | cons ev log ih =>
    cases ev with
    | put p k v w =>
      rw [List.filterMap_cons_some (show CacheEvent.putValue _ = some (k, v) from rfl), List.find?_cons]
      by_cases hk : k = key
      · simp [CacheLog.lastPut, hk]
      · simpa [CacheLog.lastPut, hk] using ih
    | taken | hit | restored => exact ih

end LastPut

/-! ## The log and the calls -/

section Calls

variable [DecidableEq V] {c c' : Cache V} {log : CacheLog V} {key : Word} {value : V}

theorem events_putValue (c : Cache V) (op : CacheOp V) :
    (c.events op).filterMap CacheEvent.putValue = op.putValue.toList := by
  cases op with
  | put key value alloc =>
    cases htakes : c.takes key value <;> cases alloc <;>
      simp [Cache.events, htakes, CacheEvent.putValue, CacheOp.putValue]
  | get key update =>
    cases update with
    | false => rfl
    | true =>
      simp only [Cache.events]
      split
      · split_ifs <;> rfl
      · rfl

theorem events_reported {alloc : Bool} {r : Option V} (hput : c.cachePut key value alloc = some (r, c')) :
    (c.events (.put key value alloc)).filterMap CacheEvent.reported = r.toList := by
  obtain ⟨found, -, hcases⟩ := Cache.cachePut_cases hput
  obtain ⟨htakes, -, rfl, ⟨rfl, -⟩ | ⟨rfl, -⟩⟩ | ⟨p, e, htakes, -, -, -, ⟨rfl, rfl, -⟩ | ⟨rfl, rfl, -⟩⟩ := hcases
  all_goals simp [Cache.events, htakes, CacheEvent.reported, List.filterMap_cons]

theorem events_get_reported (c : Cache V) (key : Word) (update : Bool) :
    (c.events (.get key update)).filterMap CacheEvent.reported = [] := by
  cases update with
  | false => rfl
  | true =>
    simp only [Cache.events]
    split
    · split_ifs <;> rfl
    · rfl

theorem cacheLog_putValue {ops : List (CacheOp V)} (hrun : cacheRun ops c = some c') :
    (cacheLog ops c log).filterMap CacheEvent.putValue =
      (ops.filterMap CacheOp.putValue).reverse ++ log.filterMap CacheEvent.putValue := by
  have hcons : ∀ (op : CacheOp V) (ops : List (CacheOp V)), ((op :: ops).filterMap CacheOp.putValue).reverse =
      (ops.filterMap CacheOp.putValue).reverse ++ op.putValue.toList := by
    intro op ops
    cases hop : op.putValue <;> simp [hop]
  induction ops generalizing c log with
  | nil => rfl
  | cons op ops ih =>
    rw [hcons, List.append_assoc, ← events_putValue c op, ← List.filterMap_append]
    cases op with
    | put key value alloc =>
      obtain ⟨r, hput, hrun⟩ := Option.bind_eq_some_iff.mp hrun
      simp only [cacheLog, hput]
      exact ih hrun
    | get key update => exact ih hrun

theorem cacheLog_reported {ops : List (CacheOp V)} (hrun : cacheRun ops c = some c') :
    (cacheLog ops c log).filterMap CacheEvent.reported =
      (cacheReports ops c).reverse ++ log.filterMap CacheEvent.reported := by
  induction ops generalizing c log with
  | nil => rfl
  | cons op ops ih =>
    cases op with
    | put key value alloc =>
      obtain ⟨r, hput, hrun⟩ := Option.bind_eq_some_iff.mp hrun
      simp only [cacheLog, cacheReports, hput]
      rw [ih hrun, List.filterMap_append, events_reported hput, List.reverse_append, List.append_assoc]
      cases r.1 <;> rfl
    | get key update =>
      simp only [cacheLog, cacheReports]
      rw [ih hrun, List.filterMap_append, events_get_reported, List.nil_append]

end Calls

/-! ## The history -/

section History

variable [DecidableEq V]

/-- What the log of the calls says about the cache they leave. -/
structure CacheHistory (c₀ : Cache V) (ops : List (CacheOp V)) (c : Cache V) : Prop where
  /-- The puts of the log are those that have their allocation. -/
  puts : (cacheLog ops c₀ []).filterMap CacheEvent.putValue = (ops.filterMap CacheOp.putValue).reverse
  /-- The values taken out are those that were returned. -/
  reports : (cacheLog ops c₀ []).filterMap CacheEvent.reported = (cacheReports ops c₀).reverse
  /-- The last put of the key, if it was not reported. -/
  get : ∀ key update, (c.cacheGet key update).1 =
    ((cacheLog ops c₀ []).lastPut key).bind fun r => if r.1 ∈ (cacheLog ops c₀ []).gone then none else some r.2.1
  reported_once : (cacheLog ops c₀ []).gone.Nodup
  /-- A put is reported, or a lookup finds it. -/
  reported_iff : ∀ p key v w, .put p key v w ∈ cacheLog ops c₀ [] →
    (.taken p v ∈ cacheLog ops c₀ [] ↔ .hit p ∉ c.events (.get key true))
  freq : ∀ key v, (c.cacheGet key false).1 = some v → ∃ p w, (cacheLog ops c₀ []).lastPut key = some (p, v, w) ∧
    c.cacheFreq key = 1 + w + BitVec.ofNat 32 ((cacheLog ops c₀ []).countP (CacheEvent.isHit p))
  list_le : c.list.length ≤ c.capacity
  put_fails : ∀ key v alloc, c.cachePut key v alloc = none ↔ (c.cacheGet key false).1 = some v

/-- The same in terms of the values that are put and returned. -/
structure ValueHistory (c₀ : Cache V) (ops : List (CacheOp V)) (c : Cache V) : Prop where
  get : ∀ key update, (c.cacheGet key update).1 =
    ((ops.filterMap CacheOp.putValue).reverse.find? fun r => r.1 = key).bind fun r =>
      if r.2 ∈ cacheReports ops c₀ then none else some r.2
  reported_once : (cacheReports ops c₀).Nodup
  not_found : ∀ v ∈ cacheReports ops c₀, ∀ key update, (c.cacheGet key update).1 ≠ some v

variable {c₀ c : Cache V} {ops : List (CacheOp V)} {log : CacheLog V}

/-- A lookup finds the put, or it has been reported. -/
theorem Logged.taken_iff (h : Logged c log) {p : EntryPtr} {key : Word} {v : V} {w : Word}
    (hput : .put p key v w ∈ log) : .taken p v ∈ log ↔ .hit p ∉ c.events (.get key true) := by
  constructor
  · intro htaken hhit
    simp only [Cache.events] at hhit
    split at hhit
    · rename_i q e hfirst
      obtain ⟨-, hq, -⟩ := Cache.firstOf_some hfirst
      split_ifs at hhit with ha
      · cases List.mem_singleton.mp hhit
        exact (h.taken_put p v htaken).1 (h.alive_mem hq ha)
      · cases hhit
    · cases hhit
  · intro hhit
    refine (h.gone p key v w hput).resolve_left fun hmem => hhit ?_
    obtain ⟨e, he, ha⟩ := Option.map_eq_some_iff.mp ((h.mem_list p).mp hmem)
    obtain ⟨w', hput', -⟩ := h.made p e he
    obtain ⟨rfl, -, -⟩ := h.put_unique hput hput'
    have hfirst := Cache.firstOf_alive (h.bucket_entry _) (h.order _) he ha (h.mem_own_bucket he)
    simp only [Cache.events, hfirst, ha, if_true]
    exact List.mem_singleton_self _

theorem Logged.cacheHistory (hlog : Logged c (cacheLog ops c₀ [])) (hb : c.Bounded) (hrun : cacheRun ops c₀ = some c) :
    CacheHistory c₀ ops c where
  puts := (cacheLog_putValue hrun).trans (List.append_nil _)
  reports := (cacheLog_reported hrun).trans (List.append_nil _)
  get := hlog.cacheGet_eq
  reported_once := hlog.taken_once
  reported_iff := fun _ _ _ _ => hlog.taken_iff
  freq key v hget := by
    obtain ⟨p, e, hp, ha, rfl, rfl⟩ := (hlog.toWf.cacheGet_iff key false v).mp hget
    obtain ⟨w, hlast, hfreq⟩ := hlog.lastPut_of_alive hp ha
    exact ⟨p, w, hlast, (hlog.toWf.cacheFreq_eq hp ha).trans hfreq⟩
  list_le := hlog.size_eq ▸ hb.size_le
  put_fails := hb.cachePut_eq_none hlog.toWf

theorem CacheHistory.put_inj (h : CacheHistory c₀ ops c) (hops : ((ops.filterMap CacheOp.putValue).map Prod.snd).Nodup)
    {p q : EntryPtr} {k k' : Word} {v : V} {w w' : Word} (hp : .put p k v w ∈ cacheLog ops c₀ [])
    (hq : .put q k' v w' ∈ cacheLog ops c₀ []) : p = q := by
  rw [← List.nodup_reverse, ← List.map_reverse, ← h.puts, List.map_filterMap] at hops
  cases filterMap_inj hops hp hq rfl rfl
  rfl

theorem CacheHistory.mem_reports (h : CacheHistory c₀ ops c) {v : V} :
    v ∈ cacheReports ops c₀ ↔ ∃ p, CacheEvent.taken p v ∈ cacheLog ops c₀ [] := by
  rw [← List.mem_reverse, ← h.reports, List.mem_filterMap]
  constructor
  · rintro ⟨ev, hev, hv⟩
    cases ev with
    | taken p v' =>
      cases hv
      exact ⟨p, hev⟩
    | put | hit | restored => cases hv
  · rintro ⟨p, hp⟩
    exact ⟨_, hp, rfl⟩

theorem CacheHistory.valueHistory (h : CacheHistory c₀ ops c) (hlog : Logged c (cacheLog ops c₀ []))
    (hops : ((ops.filterMap CacheOp.putValue).map Prod.snd).Nodup) : ValueHistory c₀ ops c := by
  -- a value that was returned was put once, and that put was taken out
  have hgone : ∀ {p key v w}, CacheEvent.put p key v w ∈ cacheLog ops c₀ [] →
      (v ∈ cacheReports ops c₀ ↔ p ∈ (cacheLog ops c₀ []).gone) := by
    intro p key v w hput
    rw [h.mem_reports, CacheLog.mem_gone]
    constructor
    · rintro ⟨q, hq⟩
      obtain ⟨-, k, w', hput'⟩ := hlog.taken_put q v hq
      obtain rfl := h.put_inj hops hput hput'
      exact ⟨v, hq⟩
    · rintro ⟨v', hv'⟩
      obtain ⟨-, k, w', hput'⟩ := hlog.taken_put p v' hv'
      obtain ⟨-, rfl, -⟩ := hlog.put_unique hput hput'
      exact ⟨p, hv'⟩
  have hget : ∀ key update, (c.cacheGet key update).1 =
      ((ops.filterMap CacheOp.putValue).reverse.find? fun r => r.1 = key).bind fun r =>
        if r.2 ∈ cacheReports ops c₀ then none else some r.2 := by
    intro key update
    rw [h.get, ← h.puts, CacheLog.find_putValue]
    cases hlast : (cacheLog ops c₀ []).lastPut key with
    | none => rfl
    | some r =>
      simp only [Option.map_some, Option.bind_some]
      exact if_congr (hgone (CacheLog.lastPut_mem hlast)).symm rfl rfl
  refine ⟨hget, ?_, fun v hv key update hfound => ?_⟩
  · rw [← List.nodup_reverse, ← h.reports]
    refine List.pairwise_filterMap.mpr ((List.pairwise_filterMap.mp h.reported_once).imp_of_mem ?_)
    intro ev ev' hev hev' hne v hv v' hv'
    cases ev with
    | taken p _ =>
      cases ev' with
      | taken q _ =>
        cases hv
        cases hv'
        rintro rfl
        obtain ⟨-, k, w, hput⟩ := hlog.taken_put p v hev
        obtain ⟨-, k', w', hput'⟩ := hlog.taken_put q v hev'
        exact hne p rfl q rfl (h.put_inj hops hput hput')
      | put | hit | restored => cases hv'
    | put | hit | restored => cases hv
  · rw [hget] at hfound
    obtain ⟨r, -, hr⟩ := Option.bind_eq_some_iff.mp hfound
    split_ifs at hr with hmem
    cases hr
    exact hmem hv

/-- **The history of every sequence of calls.** -/
theorem cacheRun_history (system : Bool) (bits : Nat) (hc : cacheCreate V system bits = some c₀)
    (hrun : cacheRun ops c₀ = some c) :
    CacheHistory c₀ ops c ∧
      (((ops.filterMap CacheOp.putValue).map Prod.snd).Nodup → ValueHistory c₀ ops c) := by
  have hlog := (Logged.create hc).run hrun
  have hb := (Cache.Bounded.create hc).run (Logged.create hc) hrun
  have h := hlog.cacheHistory hb hrun
  exact ⟨h, h.valueHistory hlog⟩

def twoBlocks : Cache Nat := { hash := cacheHash false 1, capacity := 2 }

/-- A block is looked up, evicted and translated again. -/
def secondLife : List (CacheOp Nat) :=
  [.put 1 10 true, .get 1 true, .put 2 20 true, .put 3 30 true, .put 1 11 true, .get 1 true]

/-- Its frequency goes on. -/
theorem cacheRun_history_secondLife :
    ∃ c, cacheRun secondLife twoBlocks = some c ∧ c.cacheFreq 1 = 4 ∧ CacheHistory twoBlocks secondLife c ∧
      ValueHistory twoBlocks secondLife c := by
  have hsome : (cacheRun secondLife twoBlocks).map (fun c => c.cacheFreq 1) = some 4 := by decide
  obtain ⟨c, hrun, hfreq⟩ := Option.map_eq_some_iff.mp hsome
  obtain ⟨h, hvalues⟩ := cacheRun_history false 1 rfl hrun
  exact ⟨c, hrun, hfreq, h, hvalues (by decide)⟩

end History

end Rv32emu
