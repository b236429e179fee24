import Rv32emu.PageInvalidate

/-!
# `cache_put` without memory

* `Cache.Replaces` : the entry that has to go for a new one of a key;
* `cachePut_failed` : a failed allocation moves it to the front of the list;
* `Cache.PutAtomic`, `JitCache.PutAtomic` : it is at the front already, and its block is in no bucket of the page index;
* `cachePut_atomic_iff` : exactly then a failed allocation leaves the cache as it was.
-/

namespace Rv32emu

namespace Cache

/-! ## The entry that has to go -/

section Replaces

variable {V : Type} {c c' : Cache V} {key : Word} {value : V} {r : Option V} {p : EntryPtr} {e : CacheEntry V}

/-- The alive entry of the key or, if there is none and the cache is full, the oldest entry. -/
def Replaces (c : Cache V) (key : Word) (p : EntryPtr) : Prop :=
  (∃ e, c.entry p = some e ∧ e.key = key ∧ e.alive = true) ∨
    c.NoAlive key ∧ c.size = c.capacity ∧ c.list.getLast? = some p

/-- Nothing has to go, or the entry that does is the first of the list. -/
def PutAtomic (c : Cache V) (key : Word) : Prop := ∀ p, c.Replaces key p → c.list.head? = some p

variable {found : Found}

/-- No alive entry is found: the oldest goes, if the cache is full. -/
theorem victim_oldest (hne : ∀ p, found ≠ .replaced p) (hvictim : c.victim found = some (some p)) :
    c.size = c.capacity ∧ c.list.getLast? = some p := by
  have holdest : (if c.size = c.capacity then c.list.getLast?.map some else some none) = some (some p) := by
    cases found with
    | replaced q => exact absurd rfl (hne q)
    | nothing => exact hvictim
    | revived q => exact hvictim
  split_ifs at holdest with hfull
  · obtain ⟨q, hq, hqp⟩ := Option.map_eq_some_iff.mp holdest
    exact ⟨hfull, hqp ▸ hq⟩
  · cases holdest

/-- An entry of the list is at its front after the move exactly if it was before. -/
theorem front_eq_iff {l : List EntryPtr} : p :: l.erase p = l ↔ l.head? = some p := by
  cases l with
  | nil => exact iff_of_false (List.cons_ne_nil _ _) fun h => nomatch h
  | cons q l =>
    rw [List.head?_cons, Option.some.injEq]
    constructor
    · exact fun h => (List.cons.inj h).1.symm
    · rintro rfl
      rw [List.erase_cons_head]

theorem moved_eq_iff : { c with list := p :: c.list.erase p } = c ↔ c.list.head? = some p := by
  rw [← front_eq_iff]
  refine ⟨fun h => congrArg Cache.list h, fun h => ?_⟩
  rw [h]

theorem Wf.putAtomic_single (h : c.Wf) (hlist : c.list = [p]) (key : Word) : c.PutAtomic key := by
  intro q hq
  have hmem : q ∈ c.list := by
    rcases hq with ⟨e, he, -, ha⟩ | ⟨-, -, hlast⟩
    · exact h.alive_mem he ha
    · exact List.mem_of_getLast? hlast
  rw [hlist, List.mem_singleton] at hmem
  rw [hlist, hmem, List.head?_cons]

variable [DecidableEq V]

/-- The alive entry of a key is the one the loop finds. -/
theorem findPut_alive (h : c.Wf) (hfind : c.findPut key value (c.bucket (c.hash key)) = some found)
    (hp : c.entry p = some e) (hkey : e.key = key) (ha : e.alive = true) : found = .replaced p := by
  obtain ⟨-, -, hrest⟩ := findPut_some (h.bucket_entry _) (h.order _) hfind
  by_contra hne
  have hdead := hrest p (hkey ▸ h.mem_own_bucket hp) hne e hp hkey
  rw [ha] at hdead
  cases hdead

theorem findPut_noAlive (h : c.Wf) (hfind : c.findPut key value (c.bucket (c.hash key)) = some found)
    (hne : ∀ p, found ≠ .replaced p) : c.NoAlive key := by
  intro p e hp hkey
  by_contra ha
  exact hne p (findPut_alive h hfind hp hkey (Bool.not_eq_false _ ▸ ha))

theorem findPut_replaced {l : List EntryPtr} (hl : ∀ p ∈ l, ∃ e, c.entry p = some e)
    (hfind : c.findPut key value l = some (.replaced p)) :
    ∃ e, c.entry p = some e ∧ e.key = key ∧ e.alive = true := by
  rw [findPut_eq key value hl] at hfind
  cases hfirst : c.firstOf key l with
  | none =>
    rw [hfirst] at hfind
    cases hfind
  | some r =>
    obtain ⟨q, e⟩ := r
    rw [hfirst] at hfind
    simp only at hfind
    split_ifs at hfind with ha hvalue
    · cases hfind
    · cases hfind
      obtain ⟨-, hq, hkey⟩ := firstOf_some hfirst
      exact ⟨e, hq, hkey, Bool.not_eq_false _ ▸ ha⟩

theorem victim_none (h : c.Wf) (hfind : c.findPut key value (c.bucket (c.hash key)) = some found)
    (hvictim : c.victim found = some none) (p : EntryPtr) : ¬ c.Replaces key p := by
  have hne : ∀ q, found ≠ .replaced q := by
    rintro q rfl
    cases hvictim
  have hroom : c.size ≠ c.capacity := by
    intro hfull
    have holdest : c.list.getLast?.map some = some none := by
      cases found with
      | replaced q => exact absurd rfl (hne q)
      | nothing => exact (if_pos hfull).symm.trans hvictim
      | revived q => exact (if_pos hfull).symm.trans hvictim
    obtain ⟨q, -, hq⟩ := Option.map_eq_some_iff.mp holdest
    cases hq
  rintro (⟨e, he, hkey, ha⟩ | ⟨-, hfull, -⟩)
  · exact hne p (findPut_alive h hfind he hkey ha)
  · exact hroom hfull

/-- The entry that `cache_put` takes out. -/
theorem victim_replaces (h : c.Wf) (hfind : c.findPut key value (c.bucket (c.hash key)) = some found)
    (hvictim : c.victim found = some (some p)) (q : EntryPtr) : c.Replaces key q ↔ q = p := by
  by_cases hreplaced : ∃ p', found = .replaced p'
  · obtain ⟨p', rfl⟩ := hreplaced
    have hpp : p' = p := Option.some.inj (Option.some.inj hvictim)
    subst hpp
    obtain ⟨e, he, hkey, ha⟩ := findPut_replaced (h.bucket_entry _) hfind
    constructor
    · rintro (⟨d, hd, hdkey, hda⟩ | ⟨hno, -, -⟩)
      · exact Found.replaced.inj (findPut_alive h hfind hd hdkey hda).symm
      · rw [hno p' e he hkey] at ha
        cases ha
    · rintro rfl
      exact .inl ⟨e, he, hkey, ha⟩
  · have hne : ∀ p', found ≠ .replaced p' := fun p' hp' => hreplaced ⟨p', hp'⟩
    have hno : c.NoAlive key := findPut_noAlive h hfind hne
    have hoccupied : c.size = c.capacity ∧ c.list.getLast? = some p := victim_oldest hne hvictim
    constructor
    · rintro (⟨d, hd, hdkey, hda⟩ | ⟨-, -, hlast⟩)
      · exact absurd (findPut_alive h hfind hd hdkey hda) (hne q)
      · rw [hoccupied.2] at hlast
        exact (Option.some.inj hlast).symm
    · rintro rfl
      exact .inr ⟨hno, hoccupied⟩

/-- **A failed allocation** moves the entry that has to go to the front of the list. -/
theorem cachePut_failed (h : c.Wf) (hput : c.cachePut key value false = some (r, c')) :
    r = none ∧
      ((c.takes key value = none ∧ (∀ p, ¬ c.Replaces key p) ∧ c' = c) ∨
        ∃ p e, c.takes key value = some (p, e) ∧ c.entry p = some e ∧ (∀ q, c.Replaces key q ↔ q = p) ∧
          c' = { c with list := p :: c.list.erase p }) := by
  obtain ⟨found, hfind, ⟨htakes, hvictim, rfl, ⟨-, rfl⟩ | ⟨⟨⟩, -⟩⟩ | ⟨p, e, htakes, hvictim, hp, ha, hcases⟩⟩ :=
    cachePut_cases hput
  · exact ⟨rfl, .inl ⟨htakes, victim_none h hfind hvictim, rfl⟩⟩
  · obtain ⟨-, rfl, rfl⟩ | ⟨⟨⟩, -⟩ := hcases
    exact ⟨rfl, .inr ⟨p, e, htakes, hp, victim_replaces h hfind hvictim, h.retire_restore hp ha⟩⟩

theorem Wf.cachePut_failed_iff (h : c.Wf) (hput : c.cachePut key value false = some (r, c')) :
    (r = none ∧ c' = c) ↔ c.PutAtomic key := by
  obtain ⟨rfl, ⟨-, hnone, rfl⟩ | ⟨p, e, -, -, hgoes, rfl⟩⟩ := cachePut_failed h hput
  · exact iff_of_true ⟨rfl, rfl⟩ fun p hp => absurd hp (hnone p)
  · rw [and_iff_right rfl, moved_eq_iff]
    unfold PutAtomic
    simp only [hgoes, forall_eq]

end Replaces

end Cache

/-! ## The page index -/

namespace JitCache

/-- The same for the page index: the block that has to go is in no bucket of it. -/
def PutAtomic (c : JitCache) (key : Word) : Prop :=
  c.cache.PutAtomic key ∧ ∀ p e b, c.cache.Replaces key p → c.cache.entry p = some e → c.block e.value = some b →
    e.value ∉ c.pageIndex (pageBucket b.pcStart)

variable {c c' : JitCache} {key : Word} {r : Ref} {res : Option Ref}

theorem pageIndexRemove_eq_iff {b : CachedBlock} :
    (c.pageIndexRemove r b).pageIndex = c.pageIndex ↔ r ∉ c.pageIndex (pageBucket b.pcStart) := by
  unfold pageIndexRemove
  simp only [Function.update_eq_self_iff]
  exact List.erase_eq_self_iff

theorem cachePut_false {b : CachedBlock} {indexAlloc : Bool}
    (hput : c.cachePut key r b false indexAlloc = some (res, c')) :
    ∃ cache c₁, c.cache.cachePut key r false = some (res, cache) ∧ c.removeTaken key r = some c₁ ∧
      c' = { c₁ with cache } := by
  obtain ⟨⟨replaced, cache⟩, hcache, hput⟩ := Option.bind_eq_some_iff.mp hput
  obtain ⟨c₁, hremove, hput⟩ := Option.bind_eq_some_iff.mp hput
  cases hput
  exact ⟨cache, c₁, hcache, hremove, rfl⟩

theorem cachePut_failed_iff (h : c.cache.Wf) {b : CachedBlock} {indexAlloc : Bool}
    (hput : c.cachePut key r b false indexAlloc = some (res, c')) : (res = none ∧ c' = c) ↔ c.PutAtomic key := by
  obtain ⟨cache, c₁, hcache, hremove, rfl⟩ := cachePut_false hput
  obtain ⟨rfl, ⟨htakes, hnone, rfl⟩ | ⟨p, e, htakes, hp, hgoes, rfl⟩⟩ := Cache.cachePut_failed h hcache
  · rw [removeTaken, htakes] at hremove
    cases hremove
    exact iff_of_true ⟨rfl, rfl⟩ ⟨fun p hp => absurd hp (hnone p), fun p e b hp => absurd hp (hnone p)⟩
  · rw [removeTaken, htakes] at hremove
    obtain ⟨b', hb', rfl⟩ := Option.map_eq_some_iff.mp hremove
    have hatomic : c.PutAtomic key ↔
        c.cache.list.head? = some p ∧ e.value ∉ c.pageIndex (pageBucket b'.pcStart) := by
      constructor
      · rintro ⟨hfront, hindex⟩
        exact ⟨hfront p ((hgoes p).mpr rfl), hindex p e b' ((hgoes p).mpr rfl) hp hb'⟩
      · rintro ⟨hfront, hindex⟩
        refine ⟨fun q hq => (hgoes q).mp hq ▸ hfront, fun q d d' hq hd hd' => ?_⟩
        rw [(hgoes q).mp hq, hp] at hd
        cases hd
        rw [hb'] at hd'
        cases hd'
        exact hindex
    rw [hatomic, and_iff_right rfl, ← Cache.moved_eq_iff, ← pageIndexRemove_eq_iff]
    constructor
    · intro hsame
      have hindex := congrArg JitCache.pageIndex hsame
      exact ⟨congrArg JitCache.cache hsame, hindex⟩
    · rintro ⟨hsame, hindex⟩
      unfold pageIndexRemove at hindex ⊢
      rw [hsame, hindex]

end JitCache

/-! ## Runs -/

/-- **`cache_put` is atomic under a failed allocation** exactly if nothing has to go, or what has to is the first of
the list and its block in no bucket of the page index. -/
theorem cachePut_atomic_iff {bits : Nat} (key : Word) :
    (∀ {V : Type} [DecidableEq V] {system : Bool} {c₀ c : Cache V} {ops : List (CacheOp V)},
      cacheCreate V system bits = some c₀ → cacheRun ops c₀ = some c →
        ∀ {value : V} {r : Option V} {c' : Cache V}, c.cachePut key value false = some (r, c') →
          ((r = none ∧ c' = c) ↔ c.PutAtomic key)) ∧
    ∀ {env : SysEnv} {c₀ c : JitCache} {ops : List (JitOp env)},
      jitCacheCreate bits = some c₀ → jitRun ops c₀ = some c →
        ∀ {r : Ref} {b : CachedBlock} {indexAlloc : Bool} {res : Option Ref} {c' : JitCache},
          c.cachePut key r b false indexAlloc = some (res, c') → ((res = none ∧ c' = c) ↔ c.PutAtomic key) := by
  constructor
  · intro V _ system c₀ c ops hcreate hrun value r c' hput
    have hlogged := (Logged.create hcreate).run hrun
    exact hlogged.toWf.cachePut_failed_iff hput
  · intro env c₀ c ops hcreate hrun r b indexAlloc res c' hput
    obtain ⟨lost, hindexed, -⟩ := (JitCache.Indexed.create hcreate).run hrun
    exact JitCache.cachePut_failed_iff hindexed.wf hput

/-- A cache of one entry, and a page index that could not be extended. -/
theorem cachePut_atomic_single :
    (∃ c : Cache Nat, cacheRun [.put 1 10 true] { hash := cacheHash false 0, capacity := 1 } = some c ∧
        c.cachePut 2 20 false = some (none, c)) ∧
      ∃ c, jitRun [.put 0xffc (nopAt 0xffc (by decide)) 0 true false] emptyOne = some c ∧
        c.cachePut 0x1000 7 ⟨0x1000, 0x1004, 0, false⟩ false true = some (none, c) := by
  constructor
  · have hsome : ((cacheRun [.put 1 10 true] { hash := cacheHash false 0, capacity := 1 } : Option (Cache Nat)).bind
        fun c => (c.cachePut 2 20 false).map fun x => (c.list, x.1)) = some ([0], none) := by decide
    obtain ⟨c, hrun, hput⟩ := Option.bind_eq_some_iff.mp hsome
    obtain ⟨⟨r, c'⟩, hput, hfields⟩ := Option.map_eq_some_iff.mp hput
    obtain ⟨hlist, rfl⟩ := Prod.mk.inj hfields
    have hcreate : cacheCreate Nat false 0 = some { hash := cacheHash false 0, capacity := 1 } := rfl
    have hwf := ((Logged.create hcreate).run hrun).toWf
    obtain ⟨-, rfl⟩ := ((cachePut_atomic_iff 2).1 hcreate hrun hput).mpr (hwf.putAtomic_single hlist 2)
    exact ⟨c', hrun, hput⟩
  · have hsome : ((jitRun [.put 0xffc (nopAt 0xffc (by decide)) 0 true false] emptyOne).bind fun c =>
        (c.cachePut 0x1000 7 ⟨0x1000, 0x1004, 0, false⟩ false true).map fun x => (c.cache.list, x.1)) =
          some ([0], none) := by decide
    obtain ⟨c, hrun, hput⟩ := Option.bind_eq_some_iff.mp hsome
    obtain ⟨⟨r, c'⟩, hput, hfields⟩ := Option.map_eq_some_iff.mp hput
    obtain ⟨hlist, rfl⟩ := Prod.mk.inj hfields
    have hindex : c.pageIndex = fun _ => [] := by
      cases hrun
      rfl
    have hcreate : jitCacheCreate 0 = some emptyOne := rfl
    obtain ⟨lost, hindexed, -⟩ := (JitCache.Indexed.create hcreate).run hrun
    have hatomic : c.PutAtomic 0x1000 :=
      ⟨hindexed.wf.putAtomic_single hlist _, fun p e b _ _ _ => by rw [hindex]; exact List.not_mem_nil⟩
    obtain ⟨-, rfl⟩ := ((cachePut_atomic_iff 0x1000).2 hcreate hrun hput).mpr hatomic
    exact ⟨c', hrun, hput⟩

/-- The older of two entries is put back at the front, and a block that is put back is no longer in the index. -/
theorem cachePut_not_atomic :
    (∃ c c' : Cache Nat,
        cacheRun [.put 1 10 true, .put 2 20 true] { hash := cacheHash false 1, capacity := 2 } = some c ∧
        c.cachePut 3 30 false = some (none, c') ∧ c.list = [1, 0] ∧ c'.list = [0, 1]) ∧
      ∃ c c', jitRun (oneNop 0xffc (by decide)) emptyOne = some c ∧
        c.cachePut 0x1000 7 ⟨0x1000, 0x1004, 0, false⟩ false true = some (none, c') ∧
          c.pageIndex (pageBucket 0xffc) = [0] ∧ c'.pageIndex (pageBucket 0xffc) = [] := by
  constructor
  · have hsome : ((cacheRun [.put 1 10 true, .put 2 20 true] { hash := cacheHash false 1, capacity := 2 } :
        Option (Cache Nat)).bind fun c => (c.cachePut 3 30 false).map fun x => (c.list, x.1, x.2.list)) =
          some ([1, 0], none, [0, 1]) := by decide
    obtain ⟨c, hrun, hput⟩ := Option.bind_eq_some_iff.mp hsome
    obtain ⟨⟨r, c'⟩, hput, hfields⟩ := Option.map_eq_some_iff.mp hput
    simp only [Prod.mk.injEq] at hfields
    obtain ⟨hlist, rfl, hlist'⟩ := hfields
    exact ⟨c, c', hrun, hput, hlist, hlist'⟩
  · have hsome : ((jitRun (oneNop 0xffc (by decide)) emptyOne).bind fun c =>
        (c.cachePut 0x1000 7 ⟨0x1000, 0x1004, 0, false⟩ false true).map fun x =>
          (c.pageIndex (pageBucket 0xffc), x.1, x.2.pageIndex (pageBucket 0xffc))) = some ([0], none, []) := by decide
    obtain ⟨c, hrun, hput⟩ := Option.bind_eq_some_iff.mp hsome
    obtain ⟨⟨r, c'⟩, hput, hfields⟩ := Option.map_eq_some_iff.mp hput
    simp only [Prod.mk.injEq] at hfields
    obtain ⟨hindex, rfl, hindex'⟩ := hfields
    exact ⟨c, c', hrun, hput, hindex, hindex'⟩

end Rv32emu
