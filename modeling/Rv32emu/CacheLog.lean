import Rv32emu.CacheInv

/-!
# The log of a block cache

* `CacheEvent`, `Cache.events`, `cacheLog` : what the calls of a run have done to which entry, newest first;
* `Cache.findPut_eq` : `cache_put` decides on the first entry of the key, as `cache_get` does;
* `cachePut_cases`, `putNew_cases` : a call of `cache_put` in its parts;
* `Logged` : the entries, the two lists and the buckets as the log has them. `Logged.retire`, `Logged.drop`,
  `Logged.add`, `Logged.hit` and `Logged.restore` keep it, so that every run does (`Logged.run`).
-/

namespace Rv32emu

/-! ## Events -/

inductive CacheEvent (V : Type)
  /-- An entry is made, with the frequency `inherited + 1`. -/
  | put (p : EntryPtr) (key : Word) (value : V) (inherited : Word)
  /-- An entry becomes a ghost and its value is reported. -/
  | taken (p : EntryPtr) (value : V)
  /-- An updating `cache_get` finds the entry. -/
  | hit (p : EntryPtr)
  /-- The entry is put back after a failed allocation. -/
  | restored (p : EntryPtr)
  deriving DecidableEq, Repr

abbrev CacheLog (V : Type) := List (CacheEvent V)

namespace CacheEvent

variable {V : Type}

def ptr : CacheEvent V → EntryPtr
  | .put p .. | .taken p _ | .hit p | .restored p => p

def isHit (p : EntryPtr) : CacheEvent V → Bool
  | .hit q => q = p
  | _ => false

def putPtr : CacheEvent V → Option EntryPtr
  | .put p .. => some p
  | _ => none

def takenPtr : CacheEvent V → Option EntryPtr
  | .taken p _ => some p
  | _ => none

/-- What the caller of `cache_put` is told. -/
def reported : CacheEvent V → Option V
  | .taken _ v => some v
  | _ => none

def putValue : CacheEvent V → Option (Word × V)
  | .put _ key value _ => some (key, value)
  | _ => none

end CacheEvent

namespace Cache

variable {V : Type}

/-- The frequency a new entry of the key takes over: that of the last ghost of the key, if the key is
not alive. -/
def inherited (c : Cache V) (key : Word) : Word :=
  if (c.cacheGet key false).1.isSome then 0
  else ((c.firstOf key c.ghostList).map fun r => r.2.freq).getD 0

variable [DecidableEq V]

/-- The entry that `cache_put` takes out. -/
def takes (c : Cache V) (key : Word) (value : V) : Option (EntryPtr × CacheEntry V) := do
  let found ← c.findPut key value (c.bucket (c.hash key))
  let p ← (← c.victim found)
  let e ← c.entry p
  return (p, e)

def events (c : Cache V) : CacheOp V → CacheLog V
  | .put key value true =>
    .put c.fresh key value (c.inherited key) :: ((c.takes key value).map fun r => .taken r.1 r.2.value).toList
  | .put key value false => ((c.takes key value).map fun r => .restored r.1).toList
  | .get key true =>
    match c.firstOf key (c.bucket (c.hash key)) with
    | some (p, e) => if e.alive then [.hit p] else []
    | none => []
  | .get _ false => []

end Cache

section Log

variable {V : Type} [DecidableEq V]

def cacheLog : List (CacheOp V) → Cache V → CacheLog V → CacheLog V
  | [], _, log => log
  | .put key value alloc :: ops, c, log =>
    match c.cachePut key value alloc with
    | none => log
    | some r => cacheLog ops r.2 (c.events (.put key value alloc) ++ log)
  | .get key update :: ops, c, log => cacheLog ops (c.cacheGet key update).2 (c.events (.get key update) ++ log)

/-- The values that the calls of `cache_put` have returned, first to last. -/
def cacheReports : List (CacheOp V) → Cache V → List V
  | [], _ => []
  | .put key value alloc :: ops, c =>
    match c.cachePut key value alloc with
    | none => []
    | some r => r.1.toList ++ cacheReports ops r.2
  | .get key update :: ops, c => cacheReports ops (c.cacheGet key update).2

/-- The key and the value of a `cache_put` that has its allocation. -/
def CacheOp.putValue : CacheOp V → Option (Word × V)
  | .put key value true => some (key, value)
  | _ => none

end Log

/-! ## `cache_put` in its parts -/

namespace Cache

variable {V : Type} {c c' : Cache V} {p : EntryPtr} {e : CacheEntry V} {key : Word} {value : V} {found : Found}

/-- **The first entry of the key decides.** -/
theorem findPut_eq [DecidableEq V] (key : Word) (value : V) {l : List EntryPtr}
    (hl : ∀ p ∈ l, ∃ e, c.entry p = some e) :
    c.findPut key value l =
      match c.firstOf key l with
      | none => some .nothing
      | some (p, e) =>
        if e.alive = false then some (.revived p) else if e.value = value then none else some (.replaced p) := by
  induction l with
  | nil => rfl
  | cons p l ih =>
    obtain ⟨e, he⟩ := hl p List.mem_cons_self
    simp only [findPut, firstOf, he, Option.bind_eq_bind, Option.bind_some]
    by_cases hkey : e.key = key
    · simp [hkey]
    · simpa [hkey] using ih fun q hq => hl q (List.mem_cons_of_mem p hq)

theorem addFound_cases (h : c.addFound key value found = some c') :
    ((∀ q, found ≠ .revived q) ∧ c' = c.add key value 1) ∨
      ∃ q e, found = .revived q ∧ c.entry q = some e ∧ c' = (c.drop q).add key value (e.freq + 1) := by
  cases found with
  | nothing => exact .inl ⟨fun q hq => (nomatch hq), (Option.some.inj h).symm⟩
  | replaced p => exact .inl ⟨fun q hq => (nomatch hq), (Option.some.inj h).symm⟩
  | revived q =>
    obtain ⟨e, he, hadd⟩ := Option.bind_eq_some_iff.mp h
    exact .inr ⟨q, e, rfl, he, (Option.some.inj hadd).symm⟩

theorem putNew_cases (h : c.putNew found key value = some c') :
    (c'.size ≤ c'.capacity ∧ c'.ghostListSize ≤ c'.capacity) ∧
      ∃ c₁, c.addFound key value found = some c₁ ∧
        (c' = c₁ ∨ ∃ q e, c₁.entry q = some e ∧ e.alive = false ∧ c' = c₁.drop q) := by
  obtain ⟨c₁, h₁, h⟩ := Option.bind_eq_some_iff.mp h
  obtain ⟨c₂, h₂, h⟩ := Option.bind_eq_some_iff.mp h
  obtain ⟨⟨⟩, hbounds, h⟩ := Option.bind_eq_some_iff.mp h
  cases h
  refine ⟨(Option.guard_eq_some' _).mp hbounds, c₁, h₁, ?_⟩
  unfold cacheGhostListUpdate at h₂
  split_ifs at h₂
  · exact .inl (Option.some.inj h₂).symm
  · obtain ⟨q, -, h₂⟩ := Option.bind_eq_some_iff.mp h₂
    obtain ⟨e, he, h₂⟩ := Option.bind_eq_some_iff.mp h₂
    split_ifs at h₂ with halive
    exact .inr ⟨q, e, he, by simpa using halive, (Option.some.inj h₂).symm⟩

theorem cachePut_cases [DecidableEq V] {alloc : Bool} {r : Option V} (h : c.cachePut key value alloc = some (r, c')) :
    ∃ found, c.findPut key value (c.bucket (c.hash key)) = some found ∧
      ((c.takes key value = none ∧ c.victim found = some none ∧ r = none ∧
          (alloc = false ∧ c' = c ∨ alloc = true ∧ c.putNew found key value = some c')) ∨
        ∃ p e, c.takes key value = some (p, e) ∧ c.victim found = some (some p) ∧ c.entry p = some e ∧
          e.alive = true ∧
          (alloc = false ∧ r = none ∧ c' = (c.retire p e).restore p e ∨
            alloc = true ∧ r = some e.value ∧ (c.retire p e).putNew found key value = some c')) := by
  obtain ⟨⟨⟩, -, h⟩ := Option.bind_eq_some_iff.mp h
  obtain ⟨found, hfind, h⟩ := Option.bind_eq_some_iff.mp h
  obtain ⟨v, hvictim, h⟩ := Option.bind_eq_some_iff.mp h
  refine ⟨found, hfind, ?_⟩
  cases v with
  | none =>
    refine .inl ⟨by simp [takes, hfind, hvictim], hvictim, ?_⟩
    cases alloc with
    | false =>
      cases h
      exact ⟨rfl, .inl ⟨rfl, rfl⟩⟩
    | true =>
      obtain ⟨c₁, h₁, h⟩ := Option.bind_eq_some_iff.mp h
      cases h
      exact ⟨rfl, .inr ⟨rfl, h₁⟩⟩
  | some p =>
    obtain ⟨e, he, h⟩ := Option.bind_eq_some_iff.mp h
    obtain ⟨⟨⟩, halive, h⟩ := Option.bind_eq_some_iff.mp h
    refine .inr ⟨p, e, by simp [takes, hfind, hvictim, he], hvictim, he, (Option.guard_eq_some' _).mp halive, ?_⟩
    cases alloc with
    | false =>
      cases h
      exact .inl ⟨rfl, rfl, rfl⟩
    | true =>
      obtain ⟨c₁, h₁, h⟩ := Option.bind_eq_some_iff.mp h
      cases h
      exact .inr ⟨rfl, rfl, h₁⟩

/-! ## Newer entries come first -/

/-- Of two entries of one key the first is the newer one. -/
def Newer (c : Cache V) (p q : EntryPtr) : Prop :=
  ∀ e e', c.entry p = some e → c.entry q = some e' → e.key = e'.key → q < p

theorem Newer.less {q : EntryPtr} (h : c.Newer p q) (hless : c'.Less c) : c'.Newer p q := by
  intro d d' hd hd' hkey
  obtain ⟨e, he, hsame, -⟩ := hless p d hd
  obtain ⟨e', he', hsame', -⟩ := hless q d' hd'
  exact h e e' he he' (hsame.trans (hkey.trans hsame'.symm))

theorem entry_drop {q : EntryPtr} {d : CacheEntry V} (h : (c.drop p).entry q = some d) : c.entry q = some d := by
  change Function.update c.entry p none q = some d at h
  by_cases hq : q = p
  · rw [hq, Function.update_self] at h
    cases h
  · rwa [Function.update_of_ne hq] at h

theorem firstOf_newest {l : List EntryPtr} (hnewer : l.Pairwise c.Newer) (h : c.firstOf key l = some (p, e)) :
    p ∈ l ∧ c.entry p = some e ∧ e.key = key ∧ ∀ q ∈ l, ∀ d, c.entry q = some d → d.key = key → q ≤ p := by
  refine ⟨(firstOf_some h).1, (firstOf_some h).2.1, (firstOf_some h).2.2, ?_⟩
  induction l with
  | nil => cases h
  | cons r l ih =>
    obtain ⟨hfirst, hrest⟩ := List.pairwise_cons.mp hnewer
    unfold firstOf at h
    split at h
    · cases h
    · rename_i d hd
      intro q hq d' hd' hkey
      split_ifs at h with hr
      · cases h
        obtain rfl | hq := List.mem_cons.mp hq
        · exact le_rfl
        · exact (hfirst q hq _ d' hd hd' (hr.trans hkey.symm)).le
      · obtain rfl | hq := List.mem_cons.mp hq
        · rw [hd] at hd'
          exact absurd ((congrArg CacheEntry.key (Option.some.inj hd')).trans hkey) hr
        · exact ih hrest h q hq d' hd' hkey

theorem firstOf_none {l : List EntryPtr} (hl : ∀ p ∈ l, ∃ e, c.entry p = some e) (h : c.firstOf key l = none) :
    ∀ q ∈ l, ∀ d, c.entry q = some d → d.key ≠ key := by
  induction l with
  | nil => exact fun q hq => (nomatch hq)
  | cons r l ih =>
    obtain ⟨e, he⟩ := hl r List.mem_cons_self
    simp only [firstOf, he] at h
    split_ifs at h with hr
    intro q hq d hd
    obtain rfl | hq := List.mem_cons.mp hq
    · rw [he] at hd
      cases hd
      exact hr
    · exact ih (fun p hp => hl p (List.mem_cons_of_mem r hp)) h q hq d hd

end Cache

/-! ## The invariant -/

/-- In a list without repetitions one image has one origin. -/
theorem filterMap_inj {α β : Type} {f : α → Option β} {l : List α} (h : (l.filterMap f).Nodup) {x y : α} {b : β}
    (hx : x ∈ l) (hy : y ∈ l) (hfx : f x = some b) (hfy : f y = some b) : x = y := by
  have hsymm : Std.Symm fun x y : α => ∀ b, f x = some b → ∀ b', f y = some b' → b ≠ b' :=
    ⟨fun _ _ hdiff b hb b' hb' heq => hdiff b' hb' b hb heq.symm⟩
  by_contra hne
  exact (List.pairwise_filterMap.mp h).forall hx hy hne b hfx b hfy rfl

structure Logged {V : Type} (c : Cache V) (log : CacheLog V) : Prop extends c.Wf where
  bucket_desc : ∀ b, (c.bucket b).Pairwise (· > ·)
  ghost_newer : c.ghostList.Pairwise c.Newer
  ptr_lt : ∀ ev ∈ log, ev.ptr < c.fresh
  put_desc : (log.filterMap CacheEvent.putPtr).Pairwise (· > ·)
  /-- An entry was put, and its frequency is the inherited one plus the hits. -/
  made : ∀ p e, c.entry p = some e → ∃ w, .put p e.key e.value w ∈ log ∧
    e.freq = 1 + w + BitVec.ofNat 32 (log.countP (CacheEvent.isHit p))
  taken_put : ∀ p v, .taken p v ∈ log → p ∉ c.list ∧ ∃ k w, .put p k v w ∈ log
  taken_once : (log.filterMap CacheEvent.takenPtr).Nodup
  gone : ∀ p k v w, .put p k v w ∈ log → p ∈ c.list ∨ .taken p v ∈ log
  /-- An alive entry is the last one put under its key. -/
  last : ∀ p e, c.entry p = some e → e.alive = true → ∀ q v w, .put q e.key v w ∈ log → q ≤ p

namespace Logged

variable {V : Type} {c : Cache V} {log : CacheLog V} {p : EntryPtr} {e : CacheEntry V} {key : Word}

theorem create {system : Bool} {bits : Nat} (h : cacheCreate V system bits = some c) : Logged c [] := by
  have hwf := Cache.Wf.create h
  unfold cacheCreate at h
  split_ifs at h
  cases h
  exact
    { hwf with
      bucket_desc := fun b => .nil
      ghost_newer := .nil
      ptr_lt := fun ev hev => (nomatch hev)
      put_desc := .nil
      made := fun p e he => (nomatch he)
      taken_put := fun p v h => (nomatch h)
      taken_once := List.nodup_nil
      gone := fun p k v w h => (nomatch h)
      last := fun p e he => (nomatch he) }

theorem bucket_newer (h : Logged c log) (b : Nat) : (c.bucket b).Pairwise c.Newer :=
  (h.bucket_desc b).imp fun hlt _ _ _ _ _ => hlt

theorem put_unique (h : Logged c log) {k k' : Word} {v v' : V} {w w' : Word} (hput : .put p k v w ∈ log)
    (hput' : .put p k' v' w' ∈ log) : k = k' ∧ v = v' ∧ w = w' := by
  have heq := filterMap_inj (h.put_desc.imp ne_of_gt) hput hput' (b := p) rfl rfl
  cases heq
  exact ⟨rfl, rfl, rfl⟩

theorem drop (h : Logged c log) (hp : c.entry p = some e) (ha : e.alive = false) : Logged (c.drop p) log :=
  { h.toWf.drop hp ha with
    bucket_desc := fun b => (h.bucket_desc b).sublist List.erase_sublist
    ghost_newer := (h.ghost_newer.sublist List.erase_sublist).imp fun hnewer => hnewer.less (Cache.less_drop c p)
    ptr_lt := h.ptr_lt
    put_desc := h.put_desc
    made := fun q d hd => h.made q d (Cache.entry_drop hd)
    taken_put := fun q v ht =>
      ⟨fun hmem => (h.taken_put q v ht).1 (List.mem_of_mem_erase hmem), (h.taken_put q v ht).2⟩
    taken_once := h.taken_once
    gone := fun q k v w hput => (h.gone q k v w hput).imp_left fun hmem =>
      (List.mem_erase_of_ne (ne_of_mem_of_not_mem hmem (h.ghost_not_alive hp ha))).mpr hmem
    last := fun q d hd => h.last q d (Cache.entry_drop hd) }

/-- An alive entry is newer than the other entries of its key. -/
theorem alive_newest (h : Logged c log) {q : EntryPtr} {d : CacheEntry V} (hp : c.entry p = some e)
    (ha : e.alive = true) (hq : c.entry q = some d) (hkey : d.key = e.key) (hne : q ≠ p) : q < p := by
  obtain ⟨w, hput, -⟩ := h.made q d hq
  rw [hkey] at hput
  exact lt_of_le_of_ne (h.last p e hp ha q d.value w hput) hne

theorem retire (h : Logged c log) (hp : c.entry p = some e) (ha : e.alive = true) :
    Logged (c.retire p e) (.taken p e.value :: log) := by
  have hghost : c.ghostList.erase p = c.ghostList := List.erase_of_not_mem (h.alive_not_ghost hp ha)
  obtain ⟨w, hput, hfreq⟩ := h.made p e hp
  have hlt : p < c.fresh := h.ptr_lt _ hput
  have hold : ∀ q d, (c.retire p e).entry q = some d → ∃ d', c.entry q = some d' ∧ d.key = d'.key ∧
      d.value = d'.value ∧ d.freq = d'.freq ∧ (d.alive = true → d'.alive = true) := by
    intro q d hd
    change Function.update c.entry p _ q = some d at hd
    by_cases hq : q = p
    · rw [hq, Function.update_self] at hd
      cases hd
      exact ⟨e, by rw [hq, hp], rfl, rfl, rfl, fun h => by cases h⟩
    · rw [Function.update_of_ne hq] at hd
      exact ⟨d, hd, rfl, rfl, rfl, id⟩
  refine
    { h.toWf.retire hp ha with
      bucket_desc := h.bucket_desc
      ghost_newer := ?_
      ptr_lt := List.forall_mem_cons.mpr ⟨hlt, h.ptr_lt⟩
      put_desc := h.put_desc
      made := fun q d hd => ?_
      taken_put := fun q v ht => ?_
      taken_once := ?_
      gone := fun q k v w' hput' => ?_
      last := fun q d hd halive r v w' hr => ?_ }
  · change (p :: c.ghostList.erase p).Pairwise _
    rw [hghost]
    refine (h.ghost_newer.imp fun hnewer => hnewer.less (Cache.less_retire hp)).cons fun q hq d d' hd hd' hkey => ?_
    obtain ⟨e₁, he₁, hkey₁, -⟩ := hold p d hd
    obtain ⟨e₂, he₂, hkey₂, -⟩ := hold q d' hd'
    rw [hp] at he₁
    cases he₁
    refine h.alive_newest hp ha he₂ (hkey₂.symm.trans (hkey.symm.trans hkey₁)) ?_
    rintro rfl
    exact h.alive_not_ghost hp ha hq
  · obtain ⟨d', hd', hkey, hvalue, hfreq', -⟩ := hold q d hd
    obtain ⟨w', hput', hcount⟩ := h.made q d' hd'
    rw [hkey, hvalue, hfreq']
    exact ⟨w', List.mem_cons_of_mem _ hput', hcount⟩
  · obtain heq | ht := List.mem_cons.mp ht
    · cases heq
      exact ⟨fun hmem => (h.list_nodup.mem_erase_iff.mp hmem).1 rfl, e.key, w, List.mem_cons_of_mem _ hput⟩
    · obtain ⟨hnot, k, w', hput'⟩ := h.taken_put q v ht
      exact ⟨fun hmem => hnot (List.mem_of_mem_erase hmem), k, w', List.mem_cons_of_mem _ hput'⟩
  · refine List.nodup_cons.mpr ⟨fun hmem => ?_, h.taken_once⟩
    obtain ⟨ev, hev, hptr⟩ := List.mem_filterMap.mp hmem
    cases ev with
    | taken q v =>
      cases hptr
      exact (h.taken_put p v hev).1 (h.alive_mem hp ha)
    | put | hit | restored => cases hptr
  · obtain heq | hmem := List.mem_cons.mp hput'
    · cases heq
    · by_cases hq : q = p
      · subst hq
        obtain ⟨-, rfl, -⟩ := h.put_unique hput hmem
        exact .inr List.mem_cons_self
      · exact (h.gone q k v w' hmem).imp (List.mem_erase_of_ne hq).mpr (List.mem_cons_of_mem _)
  · obtain ⟨d', hd', hkey, -, -, halive'⟩ := hold q d hd
    obtain heq | hr := List.mem_cons.mp hr
    · cases heq
    · exact h.last q d' hd' (halive' halive) r v w' (hkey ▸ hr)

/-- An event of the log is about an entry that there has been. -/
theorem not_fresh (h : Logged c log) : ∀ ev ∈ log, ev.ptr ≠ c.fresh := fun ev hev => (h.ptr_lt ev hev).ne

theorem add (h : Logged c log) (hno : c.NoAlive key) (value : V) {freq w : Word} (hfreq : freq = 1 + w) :
    Logged (c.add key value freq) (.put c.fresh key value w :: log) := by
  have hfresh : c.entry c.fresh = none := h.fresh c.fresh le_rfl
  have hlt : ∀ q d, c.entry q = some d → q < c.fresh := fun q d hd => by
    by_contra hle
    rw [h.fresh q (not_lt.mp hle)] at hd
    cases hd
  have hold : ∀ q d, (c.add key value freq).entry q = some d →
      (q = c.fresh ∧ d = { value, alive := true, key, freq }) ∨ q ≠ c.fresh ∧ c.entry q = some d := by
    intro q d hd
    change Function.update c.entry c.fresh _ q = some d at hd
    by_cases hq : q = c.fresh
    · rw [hq, Function.update_self] at hd
      exact .inl ⟨hq, (Option.some.inj hd).symm⟩
    · rw [Function.update_of_ne hq] at hd
      exact .inr ⟨hq, hd⟩
  refine
    { h.toWf.add hno value freq with
      bucket_desc := fun b => ?_
      ghost_newer := ?_
      ptr_lt := fun ev hev => ?_
      put_desc := ?_
      made := fun q d hd => ?_
      taken_put := fun q v ht => ?_
      taken_once := h.taken_once
      gone := fun q k v w' hput => ?_
      last := fun q d hd halive r v w' hr => ?_ }
  · change (Function.update c.bucket (c.hash key) _ b).Pairwise _
    by_cases hb : b = c.hash key
    · rw [hb, Function.update_self]
      refine (h.bucket_desc _).cons fun q hq => ?_
      obtain ⟨d, hd⟩ := h.bucket_entry _ q hq
      exact hlt q d hd
    · rw [Function.update_of_ne hb]
      exact h.bucket_desc b
  · refine List.Pairwise.imp_of_mem (fun {q r} hq hr hnewer d d' hd hd' hkey => ?_) h.ghost_newer
    have hne : ∀ q ∈ c.ghostList, q ≠ c.fresh := by
      rintro q hq rfl
      rw [h.mem_ghost, hfresh] at hq
      cases hq
    obtain ⟨rfl, -⟩ | ⟨-, hd⟩ := hold q d hd
    · exact absurd rfl (hne _ hq)
    · obtain ⟨rfl, -⟩ | ⟨-, hd'⟩ := hold r d' hd'
      · exact absurd rfl (hne _ hr)
      · exact hnewer d d' hd hd' hkey
  · change ev.ptr < c.fresh + 1
    obtain rfl | hev := List.mem_cons.mp hev
    · exact Nat.lt_succ_self _
    · exact Nat.lt_succ_of_lt (h.ptr_lt ev hev)
  · refine List.pairwise_cons.mpr ⟨fun q hq => ?_, h.put_desc⟩
    obtain ⟨ev, hev, hptr⟩ := List.mem_filterMap.mp hq
    cases ev with
    | put =>
      cases hptr
      exact h.ptr_lt _ hev
    | taken | hit | restored => cases hptr
  · obtain ⟨rfl, rfl⟩ | ⟨-, hd⟩ := hold q d hd
    · refine ⟨w, List.mem_cons_self, ?_⟩
      have hzero : log.countP (CacheEvent.isHit c.fresh) = 0 := by
        refine List.countP_eq_zero.mpr fun ev hev hhit => h.not_fresh ev hev ?_
        cases ev with
        | hit q => exact of_decide_eq_true hhit
        | put | taken | restored => cases hhit
      rw [List.countP_cons_of_neg (by simp [CacheEvent.isHit]), hzero, hfreq]
      exact (BitVec.add_zero _).symm
    · obtain ⟨w', hput, hcount⟩ := h.made q d hd
      refine ⟨w', List.mem_cons_of_mem _ hput, ?_⟩
      rwa [List.countP_cons_of_neg (by simp [CacheEvent.isHit])]
  · obtain heq | ht := List.mem_cons.mp ht
    · cases heq
    · obtain ⟨hnot, k, w', hput⟩ := h.taken_put q v ht
      refine ⟨fun hmem => ?_, k, w', List.mem_cons_of_mem _ hput⟩
      obtain rfl | hmem := List.mem_cons.mp hmem
      · exact h.not_fresh _ ht rfl
      · exact hnot hmem
  · obtain heq | hput := List.mem_cons.mp hput
    · cases heq
      exact .inl List.mem_cons_self
    · exact (h.gone q k v w' hput).imp (List.mem_cons_of_mem _) (List.mem_cons_of_mem _)
  · obtain ⟨rfl, rfl⟩ | ⟨-, hd⟩ := hold q d hd
    · obtain heq | hr := List.mem_cons.mp hr
      · cases heq
        exact le_rfl
      · exact (h.ptr_lt _ hr).le
    · obtain heq | hr := List.mem_cons.mp hr
      · injection heq with _ hkey
        rw [hno q d hd hkey] at halive
        cases halive
      · exact h.last q d hd halive r v w' hr

theorem hit (h : Logged c log) (hp : c.entry p = some e) :
    Logged (c.setEntry p { e with freq := e.freq + 1 }) (.hit p :: log) := by
  obtain ⟨w, hput, hfreq⟩ := h.made p e hp
  have hlt : p < c.fresh := h.ptr_lt _ hput
  have hold : ∀ q d, (c.setEntry p { e with freq := e.freq + 1 }).entry q = some d →
      (q = p ∧ d = { e with freq := e.freq + 1 }) ∨ q ≠ p ∧ c.entry q = some d := by
    intro q d hd
    change Function.update c.entry p _ q = some d at hd
    by_cases hq : q = p
    · rw [hq, Function.update_self] at hd
      exact .inl ⟨hq, (Option.some.inj hd).symm⟩
    · rw [Function.update_of_ne hq] at hd
      exact .inr ⟨hq, hd⟩
  have hless : (c.setEntry p { e with freq := e.freq + 1 }).Less c := by
    intro q d hd
    obtain ⟨rfl, rfl⟩ | ⟨-, hd⟩ := hold q d hd
    · exact ⟨e, hp, rfl, rfl, id⟩
    · exact ⟨d, hd, rfl, rfl, id⟩
  refine
    { h.toWf.setFreq hp (e.freq + 1) with
      bucket_desc := h.bucket_desc
      ghost_newer := h.ghost_newer.imp fun hnewer => hnewer.less hless
      ptr_lt := List.forall_mem_cons.mpr ⟨hlt, h.ptr_lt⟩
      put_desc := h.put_desc
      made := fun q d hd => ?_
      taken_put := fun q v ht => ?_
      taken_once := h.taken_once
      gone := fun q k v w' hput => ?_
      last := fun q d hd halive r v w' hr => ?_ }
  · obtain ⟨rfl, rfl⟩ | ⟨hq, hd⟩ := hold q d hd
    · refine ⟨w, List.mem_cons_of_mem _ hput, ?_⟩
      rw [List.countP_cons_of_pos (by simp [CacheEvent.isHit]), BitVec.ofNat_add, ← BitVec.add_assoc, ← hfreq]
      rfl
    · obtain ⟨w', hput', hcount⟩ := h.made q d hd
      refine ⟨w', List.mem_cons_of_mem _ hput', ?_⟩
      rwa [List.countP_cons_of_neg (by simpa [CacheEvent.isHit] using hq.symm)]
  · obtain heq | ht := List.mem_cons.mp ht
    · cases heq
    · obtain ⟨hnot, k, w', hput'⟩ := h.taken_put q v ht
      exact ⟨hnot, k, w', List.mem_cons_of_mem _ hput'⟩
  · obtain heq | hput := List.mem_cons.mp hput
    · cases heq
    · exact (h.gone q k v w' hput).imp_right (List.mem_cons_of_mem _)
  · obtain ⟨d', hd', hkey, -, halive'⟩ := hless q d hd
    obtain heq | hr := List.mem_cons.mp hr
    · cases heq
    · exact h.last q d' hd' (halive' halive) r v w' (hkey ▸ hr)

/-- An entry is put back after a failed allocation. -/
theorem restore (h : Logged c log) (hp : c.entry p = some e) (ha : e.alive = true) :
    Logged ((c.retire p e).restore p e) (.restored p :: log) := by
  obtain ⟨w, hput, -⟩ := h.made p e hp
  have hlt : p < c.fresh := h.ptr_lt _ hput
  have hwf := h.toWf.restore hp ha
  rw [h.toWf.retire_restore hp ha] at hwf ⊢
  refine
    { hwf with
      bucket_desc := h.bucket_desc
      ghost_newer := h.ghost_newer
      ptr_lt := List.forall_mem_cons.mpr ⟨hlt, h.ptr_lt⟩
      put_desc := h.put_desc
      made := fun q d hd => ?_
      taken_put := fun q v ht => ?_
      taken_once := h.taken_once
      gone := fun q k v w' hput' => ?_
      last := fun q d hd halive r v w' hr => ?_ }
  · obtain ⟨w', hput', hcount⟩ := h.made q d hd
    refine ⟨w', List.mem_cons_of_mem _ hput', ?_⟩
    rwa [List.countP_cons_of_neg (by simp [CacheEvent.isHit])]
  · obtain heq | ht := List.mem_cons.mp ht
    · cases heq
    · obtain ⟨hnot, k, w', hput'⟩ := h.taken_put q v ht
      refine ⟨fun hmem => ?_, k, w', List.mem_cons_of_mem _ hput'⟩
      obtain rfl | hmem := List.mem_cons.mp hmem
      · exact hnot (h.alive_mem hp ha)
      · exact hnot (List.mem_of_mem_erase hmem)
  · obtain heq | hmem := List.mem_cons.mp hput'
    · cases heq
    · refine (h.gone q k v w' hmem).imp (fun hq => ?_) (List.mem_cons_of_mem _)
      by_cases hqp : q = p
      · exact hqp ▸ List.mem_cons_self
      · exact List.mem_cons_of_mem _ ((List.mem_erase_of_ne hqp).mpr hq)
  · obtain heq | hr := List.mem_cons.mp hr
    · cases heq
    · exact h.last q d hd halive r v w' hr

/-! ### The calls -/

section Calls

variable {c' : Cache V} {value : V} {found : Cache.Found}

theorem ghost_entry (h : Logged c log) : ∀ q ∈ c.ghostList, ∃ d, c.entry q = some d := by
  intro q hq
  obtain ⟨d, hd, -⟩ := Option.map_eq_some_iff.mp ((h.mem_ghost q).mp hq)
  exact ⟨d, hd⟩

/-- The ghost that `cache_put` revives is the one that was retired last. -/
theorem inherited_revived [DecidableEq V] (h : Logged c log)
    (hfind : c.findPut key value (c.bucket (c.hash key)) = some (.revived p)) (hp : c.entry p = some e) :
    c.inherited key = e.freq := by
  rw [Cache.findPut_eq key value (h.bucket_entry _)] at hfind
  cases hfirst : c.firstOf key (c.bucket (c.hash key)) with
  | none =>
    rw [hfirst] at hfind
    cases hfind
  | some r =>
    obtain ⟨q, d⟩ := r
    obtain ⟨-, hq, hkey, hnewest⟩ := Cache.firstOf_newest (h.bucket_newer _) hfirst
    simp only [hfirst] at hfind
    split_ifs at hfind with halive _
    all_goals cases hfind
    obtain rfl : d = e := Option.some.inj (hq.symm.trans hp)
    have hget : (c.cacheGet key false).1 = none := by simp [Cache.cacheGet, hfirst, halive]
    cases hghost : c.firstOf key c.ghostList with
    | none => exact absurd hkey (Cache.firstOf_none h.ghost_entry hghost p (h.ghost_mem hq halive) d hq)
    | some r =>
      obtain ⟨q', d'⟩ := r
      obtain ⟨-, hq', hkey', hnewest'⟩ := Cache.firstOf_newest h.ghost_newer hghost
      have hle := hnewest q' (hkey' ▸ h.mem_own_bucket hq') d' hq' hkey'
      obtain rfl : q' = p := le_antisymm hle (hnewest' p (h.ghost_mem hq halive) d hq hkey)
      obtain rfl : d' = d := Option.some.inj (hq'.symm.trans hq)
      simp [Cache.inherited, hget, hghost]

theorem inherited_zero [DecidableEq V] (h : Logged c log)
    (hfind : c.findPut key value (c.bucket (c.hash key)) = some found) (hne : ∀ q, found ≠ .revived q) :
    c.inherited key = 0 := by
  rw [Cache.findPut_eq key value (h.bucket_entry _)] at hfind
  cases hfirst : c.firstOf key (c.bucket (c.hash key)) with
  | none =>
    have hnone := Cache.firstOf_none (h.bucket_entry _) hfirst
    cases hghost : c.firstOf key c.ghostList with
    | none => simp [Cache.inherited, hghost]
    | some r =>
      obtain ⟨-, hq, hkey⟩ := Cache.firstOf_some hghost
      exact absurd hkey (hnone r.1 (hkey ▸ h.mem_own_bucket hq) r.2 hq)
  | some r =>
    simp only [hfirst] at hfind
    split_ifs at hfind with halive
    · exact absurd (Option.some.inj hfind).symm (hne _)
    · simp [Cache.inherited, Cache.cacheGet, hfirst, halive]

theorem putNew (h : Logged c log) (hno : c.NoAlive key) (hrevived : c.RevivedOk found) {w : Word}
    (hw : ∀ q e, found = .revived q → c.entry q = some e → w = e.freq)
    (hzero : (∀ q, found ≠ .revived q) → w = 0) (hput : c.putNew found key value = some c') :
    Logged c' (.put c.fresh key value w :: log) := by
  obtain ⟨-, c₁, hadd, hghost⟩ := Cache.putNew_cases hput
  have h₁ : Logged c₁ (.put c.fresh key value w :: log) := by
    obtain ⟨hne, rfl⟩ | ⟨q, e, rfl, he, rfl⟩ := Cache.addFound_cases hadd
    · exact h.add hno value (by rw [hzero hne]; rfl)
    · obtain ⟨e', he', halive⟩ := hrevived q rfl
      obtain rfl : e = e' := Option.some.inj (he.symm.trans he')
      refine (h.drop he halive).add ((Cache.less_drop c q).noAlive hno) value ?_
      rw [hw q e rfl he, BitVec.add_comm]
  obtain rfl | ⟨q, e, he, halive, rfl⟩ := hghost
  · exact h₁
  · exact h₁.drop he halive

/-- **One call of `cache_put`.** -/
theorem cachePut [DecidableEq V] (h : Logged c log) {alloc : Bool} {r : Option V}
    (hput : c.cachePut key value alloc = some (r, c')) :
    Logged c' (c.events (.put key value alloc) ++ log) := by
  obtain ⟨found, hfind, hcases⟩ := Cache.cachePut_cases hput
  obtain ⟨hrevived, -, hothers⟩ := Cache.findPut_some (h.bucket_entry _) (h.order _) hfind
  have hothers' : ∀ p, found ≠ .replaced p → ∀ e, c.entry p = some e → e.key = key → e.alive = false :=
    fun p hne e he hkey => hothers p (hkey ▸ h.mem_own_bucket he) hne e he hkey
  have hzero := h.inherited_zero hfind
  obtain ⟨htakes, hvictim, -, ⟨rfl, rfl⟩ | ⟨rfl, hnew⟩⟩ | ⟨p, e, htakes, hvictim, hp, halive, hcases⟩ := hcases
  · simpa [Cache.events, htakes] using h
  · have hno : c.NoAlive key := fun q => hothers' q fun hq => by
      rw [hq] at hvictim
      cases hvictim
    simpa [Cache.events, htakes] using
      h.putNew hno hrevived (fun q d hq hd => h.inherited_revived (hq ▸ hfind) hd) hzero hnew
  · obtain ⟨rfl, -, rfl⟩ | ⟨rfl, -, hnew⟩ := hcases
    · simpa [Cache.events, htakes] using h.restore hp halive
    · have hno : (c.retire p e).NoAlive key := Cache.noAlive_retire fun q hq => hothers' q fun hrep => by
        rw [hrep] at hvictim
        exact hq (Option.some.inj (Option.some.inj hvictim))
      have hw : ∀ q d, found = .revived q → (c.retire p e).entry q = some d → c.inherited key = d.freq := by
        intro q d hq hd
        obtain ⟨d', hd', hghost⟩ := hrevived q hq
        have hqp : q ≠ p := by
          rintro rfl
          rw [hp] at hd'
          cases hd'
          rw [halive] at hghost
          cases hghost
        change Function.update c.entry p _ q = some d at hd
        rw [Function.update_of_ne hqp] at hd
        exact h.inherited_revived (hq ▸ hfind) hd
      rw [Cache.events, htakes]
      exact (h.retire hp halive).putNew hno (hrevived.retire p e) hw hzero hnew

/-- **One call of `cache_get`.** -/
theorem cacheGet [DecidableEq V] (h : Logged c log) (update : Bool) :
    Logged (c.cacheGet key update).2 (c.events (.get key update) ++ log) := by
  cases hfirst : c.firstOf key (c.bucket (c.hash key)) with
  | none => cases update <;> simpa [Cache.cacheGet, Cache.events, hfirst] using h
  | some r =>
    obtain ⟨-, hp, -⟩ := Cache.firstOf_some hfirst
    cases halive : r.2.alive with
    | false => cases update <;> simpa [Cache.cacheGet, Cache.events, hfirst, halive] using h
    | true =>
      cases update with
      | false => simpa [Cache.cacheGet, Cache.events, hfirst, halive] using h
      | true => simpa [Cache.cacheGet, Cache.events, hfirst, halive] using h.hit hp

/-- **Every sequence of calls.** -/
theorem run [DecidableEq V] {ops : List (CacheOp V)} (h : Logged c log) (hrun : cacheRun ops c = some c') :
    Logged c' (cacheLog ops c log) := by
  induction ops generalizing c log with
  | nil =>
    cases hrun
    exact h
  | cons op ops ih =>
    cases op with
    | put key value alloc =>
      obtain ⟨r, hput, hrun⟩ := Option.bind_eq_some_iff.mp hrun
      simp only [cacheLog, hput]
      exact ih (h.cachePut hput) hrun
    | get key update => exact ih (h.cacheGet update) hrun

end Calls

end Logged

end Rv32emu
