import Rv32emu.Cache

/-!
# The representation invariant of the block cache

* `Cache.Wf` : the two lists hold the alive entries and the ghosts, the buckets hold the entries by the
  hash of their key, and of two entries of one key the later one in the bucket is a ghost (`Before`);
* `Wf.retire`, `Wf.restore`, `Wf.drop`, `Wf.add` : what `cache_put` is made of keeps it;
* `Cache.Repr` : the invariant with the bounds on the lists, spelled out;
* `cachePut_repr`, `cacheGet_repr`, `cacheRun_repr` : one call, and every sequence of calls.
-/

namespace Rv32emu

namespace Cache

variable {V : Type}

/-- Of two entries of one key the later one is a ghost. -/
def Before (c : Cache V) (p q : EntryPtr) : Prop :=
  ∀ e e', c.entry p = some e → c.entry q = some e' → e.key = e'.key → e'.alive = false

structure Wf (c : Cache V) : Prop where
  size_eq : c.size = c.list.length
  ghost_eq : c.ghostListSize = c.ghostList.length
  list_nodup : c.list.Nodup
  ghost_nodup : c.ghostList.Nodup
  mem_list : ∀ p, p ∈ c.list ↔ (c.entry p).map CacheEntry.alive = some true
  mem_ghost : ∀ p, p ∈ c.ghostList ↔ (c.entry p).map CacheEntry.alive = some false
  bucket_nodup : ∀ b, (c.bucket b).Nodup
  mem_bucket : ∀ b p, p ∈ c.bucket b ↔ (c.entry p).map (fun e => c.hash e.key) = some b
  order : ∀ b, (c.bucket b).Pairwise c.Before
  fresh : ∀ p, c.fresh ≤ p → c.entry p = none

def NoAlive (c : Cache V) (key : Word) : Prop := ∀ p e, c.entry p = some e → e.key = key → e.alive = false

namespace Wf

variable {c : Cache V} {p : EntryPtr} {e : CacheEntry V}

theorem create {system : Bool} {bits : Nat} (h : cacheCreate V system bits = some c) : c.Wf := by
  unfold cacheCreate at h
  split_ifs at h
  cases h
  exact
    { size_eq := rfl, ghost_eq := rfl, list_nodup := List.nodup_nil, ghost_nodup := List.nodup_nil
      mem_list := fun p => by simp
      mem_ghost := fun p => by simp
      bucket_nodup := fun b => List.nodup_nil
      mem_bucket := fun b p => by simp
      order := fun b => List.Pairwise.nil
      fresh := fun p _ => rfl }

theorem alive_mem (h : c.Wf) (hp : c.entry p = some e) (ha : e.alive = true) : p ∈ c.list :=
  (h.mem_list p).mpr (by rw [hp, Option.map_some, ha])

theorem ghost_mem (h : c.Wf) (hp : c.entry p = some e) (ha : e.alive = false) : p ∈ c.ghostList :=
  (h.mem_ghost p).mpr (by rw [hp, Option.map_some, ha])

theorem alive_not_ghost (h : c.Wf) (hp : c.entry p = some e) (ha : e.alive = true) : p ∉ c.ghostList := by
  rw [h.mem_ghost, hp, Option.map_some, ha]
  simp

theorem ghost_not_alive (h : c.Wf) (hp : c.entry p = some e) (ha : e.alive = false) : p ∉ c.list := by
  rw [h.mem_list, hp, Option.map_some, ha]
  simp

theorem bucket_entry (h : c.Wf) (b : Nat) : ∀ p ∈ c.bucket b, ∃ e, c.entry p = some e := by
  intro p hp
  obtain ⟨e, he, -⟩ := Option.map_eq_some_iff.mp ((h.mem_bucket b p).mp hp)
  exact ⟨e, he⟩

theorem mem_own_bucket (h : c.Wf) (hp : c.entry p = some e) : p ∈ c.bucket (c.hash e.key) :=
  (h.mem_bucket _ p).mpr (by rw [hp, Option.map_some])

/-- The buckets and their order depend on the keys, and on no entry coming to life. -/
theorem setAlive_bucket (h : c.Wf) (hp : c.entry p = some e) (alive : Bool) (b : Nat) (q : EntryPtr) :
    q ∈ c.bucket b ↔
      (Function.update c.entry p (some { e with alive }) q).map (fun e => c.hash e.key) = some b := by
  rw [h.mem_bucket]
  by_cases hq : q = p
  · subst hq
    rw [Function.update_self, hp, Option.map_some, Option.map_some]
  · rw [Function.update_of_ne hq]

theorem retire (h : c.Wf) (hp : c.entry p = some e) (ha : e.alive = true) : (c.retire p e).Wf := by
  have hmem := h.alive_mem hp ha
  have hnot := h.alive_not_ghost hp ha
  have hlen := List.length_erase_of_mem hmem
  have hghost : c.ghostList.erase p = c.ghostList := List.erase_of_not_mem hnot
  constructor
  · change c.size - 1 = (c.list.erase p).length
    rw [hlen, h.size_eq]
  · change c.ghostListSize + 1 = (p :: c.ghostList.erase p).length
    rw [hghost, List.length_cons, h.ghost_eq]
  · exact h.list_nodup.erase p
  · change (p :: c.ghostList.erase p).Nodup
    rw [hghost]
    exact h.ghost_nodup.cons hnot
  · intro q
    change q ∈ c.list.erase p ↔ (Function.update c.entry p _ q).map _ = _
    rw [h.list_nodup.mem_erase_iff, h.mem_list]
    by_cases hq : q = p
    · simp [hq]
    · simp [hq]
  · intro q
    change q ∈ p :: c.ghostList.erase p ↔ (Function.update c.entry p _ q).map _ = _
    rw [hghost, List.mem_cons, h.mem_ghost]
    by_cases hq : q = p
    · simp [hq]
    · simp [hq]
  · exact h.bucket_nodup
  · exact h.setAlive_bucket hp false
  · intro b
    refine (h.order b).imp fun {q r} hbefore d d' hd hd' hkey => ?_
    change Function.update c.entry p _ q = some d at hd
    change Function.update c.entry p _ r = some d' at hd'
    by_cases hr : r = p
    · rw [hr, Function.update_self] at hd'
      rw [← Option.some.inj hd']
    · rw [Function.update_of_ne hr] at hd'
      by_cases hq : q = p
      · subst hq
        rw [Function.update_self] at hd
        rw [← Option.some.inj hd] at hkey
        exact hbefore e d' hp hd' hkey
      · rw [Function.update_of_ne hq] at hd
        exact hbefore d d' hd hd' hkey
  · intro q hq
    change Function.update c.entry p _ q = none
    have hne : q ≠ p := by
      rintro rfl
      rw [h.fresh q hq] at hp
      cases hp
    rw [Function.update_of_ne hne]
    exact h.fresh q hq

theorem drop (h : c.Wf) (hp : c.entry p = some e) (ha : e.alive = false) : (c.drop p).Wf := by
  have hmem := h.ghost_mem hp ha
  have hnot := h.ghost_not_alive hp ha
  have hlen := List.length_erase_of_mem hmem
  have hlist : c.list.erase p = c.list := List.erase_of_not_mem hnot
  constructor
  · change c.size = (c.list.erase p).length
    rw [hlist, h.size_eq]
  · change c.ghostListSize - 1 = (c.ghostList.erase p).length
    rw [hlen, h.ghost_eq]
  · exact h.list_nodup.erase p
  · exact h.ghost_nodup.erase p
  · intro q
    change q ∈ c.list.erase p ↔ (Function.update c.entry p none q).map _ = _
    rw [hlist, h.mem_list]
    by_cases hq : q = p
    · simp [hq, hp, ha]
    · simp [hq]
  · intro q
    change q ∈ c.ghostList.erase p ↔ (Function.update c.entry p none q).map _ = _
    rw [h.ghost_nodup.mem_erase_iff, h.mem_ghost]
    by_cases hq : q = p
    · simp [hq]
    · simp [hq]
  · exact fun b => (h.bucket_nodup b).erase p
  · intro b q
    change q ∈ (c.bucket b).erase p ↔ (Function.update c.entry p none q).map (fun e => c.hash e.key) = _
    rw [(h.bucket_nodup b).mem_erase_iff, h.mem_bucket]
    by_cases hq : q = p
    · simp [hq]
    · simp [hq]
  · intro b
    refine ((h.order b).sublist List.erase_sublist).imp fun {q r} hbefore d d' hd hd' hkey => ?_
    change Function.update c.entry p none q = some d at hd
    change Function.update c.entry p none r = some d' at hd'
    have hq : q ≠ p := by
      rintro rfl
      rw [Function.update_self] at hd
      cases hd
    have hr : r ≠ p := by
      rintro rfl
      rw [Function.update_self] at hd'
      cases hd'
    rw [Function.update_of_ne hq] at hd
    rw [Function.update_of_ne hr] at hd'
    exact hbefore d d' hd hd' hkey
  · intro q hq
    change Function.update c.entry p none q = none
    by_cases hqp : q = p
    · rw [hqp, Function.update_self]
    · rw [Function.update_of_ne hqp]
      exact h.fresh q hq

theorem add (h : c.Wf) {key : Word} (hno : c.NoAlive key) (value : V) (freq : Word) :
    (c.add key value freq).Wf := by
  have hfresh : c.entry c.fresh = none := h.fresh c.fresh le_rfl
  have hnot : ∀ b, c.fresh ∉ c.bucket b := fun b hmem => by
    rw [h.mem_bucket, hfresh] at hmem
    cases hmem
  constructor
  · exact congrArg (· + 1) h.size_eq
  · exact h.ghost_eq
  · refine h.list_nodup.cons fun hmem => ?_
    have hentry := (h.mem_list c.fresh).mp hmem
    rw [hfresh] at hentry
    cases hentry
  · exact h.ghost_nodup
  · intro q
    change q ∈ c.fresh :: c.list ↔ (Function.update c.entry c.fresh _ q).map _ = _
    rw [List.mem_cons, h.mem_list]
    by_cases hq : q = c.fresh
    · simp [hq]
    · simp [hq]
  · intro q
    change q ∈ c.ghostList ↔ (Function.update c.entry c.fresh _ q).map _ = _
    rw [h.mem_ghost]
    by_cases hq : q = c.fresh
    · simp [hq, hfresh]
    · simp [hq]
  · intro b
    change (Function.update c.bucket (c.hash key) _ b).Nodup
    by_cases hb : b = c.hash key
    · rw [hb, Function.update_self]
      exact (h.bucket_nodup _).cons (hnot _)
    · rw [Function.update_of_ne hb]
      exact h.bucket_nodup b
  · intro b q
    change q ∈ Function.update c.bucket (c.hash key) _ b ↔
      (Function.update c.entry c.fresh _ q).map (fun e => c.hash e.key) = _
    by_cases hq : q = c.fresh
    · subst hq
      rw [Function.update_self, Option.map_some, Option.some.injEq]
      by_cases hb : b = c.hash key
      · simp [hb]
      · simp [hb, hnot b, Ne.symm hb]
    · rw [Function.update_of_ne hq, ← h.mem_bucket]
      by_cases hb : b = c.hash key
      · rw [hb, Function.update_self, List.mem_cons, or_iff_right hq]
        rfl
      · rw [Function.update_of_ne hb]
  · intro b
    -- the old order is kept, and the new entry comes before ghosts only
    have hold : (c.bucket b).Pairwise (c.add key value freq).Before := by
      refine List.Pairwise.imp_of_mem (fun {q r} hq hr hbefore d d' hd hd' hkey => ?_) (h.order b)
      have hq' : q ≠ c.fresh := fun he => hnot b (he ▸ hq)
      have hr' : r ≠ c.fresh := fun he => hnot b (he ▸ hr)
      change Function.update c.entry c.fresh _ q = some d at hd
      change Function.update c.entry c.fresh _ r = some d' at hd'
      rw [Function.update_of_ne hq'] at hd
      rw [Function.update_of_ne hr'] at hd'
      exact hbefore d d' hd hd' hkey
    change (Function.update c.bucket (c.hash key) _ b).Pairwise _
    by_cases hb : b = c.hash key
    · subst hb
      rw [Function.update_self]
      refine hold.cons fun r hr d d' hd hd' hkey => ?_
      have hr' : r ≠ c.fresh := fun he => hnot _ (he ▸ hr)
      change Function.update c.entry c.fresh _ c.fresh = some d at hd
      change Function.update c.entry c.fresh _ r = some d' at hd'
      rw [Function.update_self] at hd
      rw [Function.update_of_ne hr'] at hd'
      cases hd
      exact hno r d' hd' hkey.symm
    · rw [Function.update_of_ne hb]
      exact hold
  · intro q hq
    have hlt : c.fresh < q := hq
    change Function.update c.entry c.fresh _ q = none
    rw [Function.update_of_ne hlt.ne']
    exact h.fresh q hlt.le

/-- A failed allocation moves the entry that was to be replaced to the front. -/
theorem retire_restore (h : c.Wf) (hp : c.entry p = some e) (ha : e.alive = true) :
    (c.retire p e).restore p e = { c with list := p :: c.list.erase p } := by
  have hmem := h.alive_mem hp ha
  have hpos : 0 < c.size := by
    rw [h.size_eq]
    exact List.length_pos_of_mem hmem
  have hlist : (c.list.erase p).erase p = c.list.erase p :=
    List.erase_of_not_mem fun hm => (h.list_nodup.mem_erase_iff.mp hm).1 rfl
  have hghost : (p :: c.ghostList.erase p).erase p = c.ghostList := by
    rw [List.erase_cons_head, List.erase_of_not_mem (h.alive_not_ghost hp ha)]
  have hentry : Function.update (Function.update c.entry p (some { e with alive := false })) p
      (some { e with alive := true }) = c.entry := by
    rw [Function.update_idem, ← ha]
    exact (Function.update_eq_self_iff.mpr hp.symm)
  simp only [Cache.restore, Cache.retire, Cache.setEntry, Cache.listDel, hlist, hghost, hentry]
  rw [Nat.sub_add_cancel hpos]
  rfl

theorem restore (h : c.Wf) (hp : c.entry p = some e) (ha : e.alive = true) :
    ((c.retire p e).restore p e).Wf := by
  have hmem := h.alive_mem hp ha
  rw [h.retire_restore hp ha]
  refine ⟨?_, h.ghost_eq, ?_, h.ghost_nodup, fun q => ?_, h.mem_ghost, h.bucket_nodup, h.mem_bucket, h.order,
    h.fresh⟩
  · change c.size = (p :: c.list.erase p).length
    rw [List.length_cons, List.length_erase_of_mem hmem, h.size_eq]
    exact (Nat.sub_add_cancel (List.length_pos_of_mem hmem)).symm
  · exact (h.list_nodup.erase p).cons fun hm => (h.list_nodup.mem_erase_iff.mp hm).1 rfl
  · change q ∈ p :: c.list.erase p ↔ _
    rw [← h.mem_list, List.mem_cons, h.list_nodup.mem_erase_iff]
    by_cases hq : q = p
    · simp [hq, hmem]
    · simp [hq]

theorem setFreq (h : c.Wf) (hp : c.entry p = some e) (freq : Word) :
    (c.setEntry p { e with freq }).Wf := by
  have hsame : ∀ {α : Type} (f : Bool → Word → α) (q : EntryPtr),
      (Function.update c.entry p (some { e with freq }) q).map (fun d => f d.alive d.key) =
        (c.entry q).map fun d => f d.alive d.key := by
    intro α f q
    by_cases hq : q = p
    · rw [hq, Function.update_self, hp]
      rfl
    · rw [Function.update_of_ne hq]
  refine ⟨h.size_eq, h.ghost_eq, h.list_nodup, h.ghost_nodup, fun q => ?_, fun q => ?_, h.bucket_nodup,
    fun b q => ?_, fun b => ?_, fun q hq => ?_⟩
  · exact (h.mem_list q).trans (by rw [← hsame fun a _ => a]; rfl)
  · exact (h.mem_ghost q).trans (by rw [← hsame fun a _ => a]; rfl)
  · exact (h.mem_bucket b q).trans (by rw [← hsame fun _ k => c.hash k]; rfl)
  · refine (h.order b).imp fun {q r} hbefore d d' hd hd' hkey => ?_
    have hq := hsame (fun a k => (a, k)) q
    have hr := hsame (fun a k => (a, k)) r
    change Function.update c.entry p _ q = some d at hd
    change Function.update c.entry p _ r = some d' at hd'
    rw [hd, Option.map_some, eq_comm, Option.map_eq_some_iff] at hq
    rw [hd', Option.map_some, eq_comm, Option.map_eq_some_iff] at hr
    obtain ⟨d0, hd0, heq⟩ := hq
    obtain ⟨d0', hd0', heq'⟩ := hr
    simp only [Prod.mk.injEq] at heq heq'
    rw [← heq'.1]
    exact hbefore d0 d0' hd0 hd0' (by rw [heq.2, heq'.2, hkey])
  · change Function.update c.entry p _ q = none
    have hne : q ≠ p := by
      rintro rfl
      rw [h.fresh q hq] at hp
      cases hp
    rw [Function.update_of_ne hne]
    exact h.fresh q hq

end Wf

/-! ## What the entries say -/

/-- Some entry was put with this key and value. -/
def Holds (c : Cache V) (key : Word) (value : V) : Prop :=
  ∃ p e, c.entry p = some e ∧ e.key = key ∧ e.value = value

def Less (c' c : Cache V) : Prop :=
  ∀ p d, c'.entry p = some d →
    ∃ e, c.entry p = some e ∧ e.key = d.key ∧ e.value = d.value ∧ (d.alive = true → e.alive = true)

section Less

variable {c c' c'' : Cache V} {p : EntryPtr} {e : CacheEntry V} {key : Word} {value : V}

theorem Less.refl (c : Cache V) : c.Less c := fun _ d hd => ⟨d, hd, rfl, rfl, id⟩

theorem Less.holds (h : c'.Less c) (hc : c'.Holds key value) : c.Holds key value := by
  obtain ⟨p, d, hd, rfl, rfl⟩ := hc
  obtain ⟨e, he, hkey, hvalue, -⟩ := h p d hd
  exact ⟨p, e, he, hkey, hvalue⟩

theorem Less.noAlive (h : c'.Less c) (hc : c.NoAlive key) : c'.NoAlive key := by
  intro p d hd hkey
  obtain ⟨e, he, hkey', -, halive⟩ := h p d hd
  have hfalse := hc p e he (hkey'.trans hkey)
  by_contra hd'
  rw [halive (by simpa using hd')] at hfalse
  cases hfalse

theorem less_retire (hp : c.entry p = some e) : (c.retire p e).Less c := by
  intro q d hd
  change Function.update c.entry p _ q = some d at hd
  by_cases hq : q = p
  · rw [hq, Function.update_self] at hd
    cases hd
    exact ⟨e, by rw [hq, hp], rfl, rfl, fun h => by cases h⟩
  · rw [Function.update_of_ne hq] at hd
    exact ⟨d, hd, rfl, rfl, id⟩

theorem less_drop (c : Cache V) (p : EntryPtr) : (c.drop p).Less c := by
  intro q d hd
  change Function.update c.entry p none q = some d at hd
  by_cases hq : q = p
  · rw [hq, Function.update_self] at hd
    cases hd
  · rw [Function.update_of_ne hq] at hd
    exact ⟨d, hd, rfl, rfl, id⟩

theorem holds_add {k : Word} {v : V} {freq : Word} (h : (c.add key value freq).Holds k v) :
    c.Holds k v ∨ (k = key ∧ v = value) := by
  obtain ⟨q, d, hd, rfl, rfl⟩ := h
  change Function.update c.entry c.fresh _ q = some d at hd
  by_cases hq : q = c.fresh
  · rw [hq, Function.update_self] at hd
    cases hd
    exact .inr ⟨rfl, rfl⟩
  · rw [Function.update_of_ne hq] at hd
    exact .inl ⟨q, d, hd, rfl, rfl⟩

end Less

/-! ## `cache_put` -/

section Put

variable {c : Cache V} {key : Word} {value : V} {found : Found}

def RevivedOk (c : Cache V) (found : Found) : Prop :=
  ∀ p, found = .revived p → ∃ e, c.entry p = some e ∧ e.alive = false

def ReplacedOk (c : Cache V) (found : Found) : Prop :=
  ∀ p, found = .replaced p → ∃ e, c.entry p = some e ∧ e.alive = true

theorem findPut_none [DecidableEq V] {l : List EntryPtr} (hl : ∀ p ∈ l, ∃ e, c.entry p = some e)
    (h : c.findPut key value l = none) : c.Holds key value := by
  induction l with
  | nil => cases h
  | cons p l ih =>
    obtain ⟨e, he⟩ := hl p List.mem_cons_self
    simp only [findPut, he, Option.bind_eq_bind, Option.bind_some] at h
    split_ifs at h with hkey halive hvalue
    · exact ih (fun q hq => hl q (List.mem_cons_of_mem p hq)) h
    · exact ⟨p, e, he, not_not.mp hkey, not_not.mp hvalue⟩

/-- The first entry of the key decides: after it come ghosts only. -/
theorem findPut_some [DecidableEq V] {l : List EntryPtr} (hl : ∀ p ∈ l, ∃ e, c.entry p = some e)
    (horder : l.Pairwise c.Before) (h : c.findPut key value l = some found) :
    c.RevivedOk found ∧ c.ReplacedOk found ∧
      ∀ p ∈ l, found ≠ .replaced p → ∀ e, c.entry p = some e → e.key = key → e.alive = false := by
  induction l with
  | nil =>
    cases h
    exact ⟨fun p hp => (nomatch hp), fun p hp => (nomatch hp), fun p hp => (nomatch hp)⟩
  | cons p l ih =>
    obtain ⟨e, he⟩ := hl p List.mem_cons_self
    obtain ⟨hfirst, hrest⟩ := List.pairwise_cons.mp horder
    simp only [findPut, he, Option.bind_eq_bind, Option.bind_some] at h
    split_ifs at h with hkey halive hvalue
    · obtain ⟨hrevived, hreplaced, hghost⟩ := ih (fun q hq => hl q (List.mem_cons_of_mem p hq)) hrest h
      refine ⟨hrevived, hreplaced, fun q hq hne d hd hd' => ?_⟩
      obtain rfl | hq := List.mem_cons.mp hq
      · rw [he] at hd
        cases hd
        exact absurd hd' hkey
      · exact hghost q hq hne d hd hd'
    all_goals
      cases h
      have hafter : ∀ q ∈ l, ∀ d, c.entry q = some d → d.key = key → d.alive = false :=
        fun q hq d hd hd' => hfirst q hq e d he hd ((not_not.mp hkey).trans hd'.symm)
    · refine ⟨fun q hq => by cases hq; exact ⟨e, he, halive⟩, fun q hq => (nomatch hq),
        fun q hq _ d hd hd' => ?_⟩
      obtain rfl | hq := List.mem_cons.mp hq
      · rw [he] at hd
        cases hd
        exact halive
      · exact hafter q hq d hd hd'
    · refine ⟨fun q hq => (nomatch hq), fun q hq => by cases hq; exact ⟨e, he, by simpa using halive⟩,
        fun q hq hne d hd hd' => ?_⟩
      obtain rfl | hq := List.mem_cons.mp hq
      · exact absurd rfl hne
      · exact hafter q hq d hd hd'

theorem cacheGhostListUpdate_ok (h : c.Wf) (hghost : c.ghostListSize ≤ c.capacity + 1) :
    ∃ c', c.cacheGhostListUpdate = some c' ∧ c'.Wf ∧ c'.ghostListSize ≤ c.capacity ∧ c'.size = c.size ∧
      c'.capacity = c.capacity ∧ c'.Less c := by
  unfold cacheGhostListUpdate
  split_ifs with hle
  · exact ⟨c, rfl, h, hle, rfl, rfl, .refl c⟩
  · have hne : c.ghostList ≠ [] := by
      intro hnil
      have heq := h.ghost_eq
      rw [hnil, List.length_nil] at heq
      omega
    have hlast := List.getLast_mem hne
    obtain ⟨e, he, halive⟩ := Option.map_eq_some_iff.mp ((h.mem_ghost _).mp hlast)
    refine ⟨c.drop (c.ghostList.getLast hne), ?_, h.drop he halive, ?_, rfl, rfl, less_drop _ _⟩
    · rw [List.getLast?_eq_some_getLast hne]
      simp [he, halive]
    · change c.ghostListSize - 1 ≤ c.capacity
      omega

theorem addFound_ok (h : c.Wf) (hno : c.NoAlive key) (hrevived : c.RevivedOk found) (value : V)
    (hghost : c.ghostListSize ≤ c.capacity + 1) :
    ∃ c', c.addFound key value found = some c' ∧ c'.Wf ∧ c'.ghostListSize ≤ c.capacity + 1 ∧
      c'.size = c.size + 1 ∧ c'.capacity = c.capacity ∧
      ∀ k v, c'.Holds k v → c.Holds k v ∨ (k = key ∧ v = value) := by
  have hplain : (c.add key value 1).Wf ∧ ∀ k v, (c.add key value 1).Holds k v → c.Holds k v ∨ (k = key ∧ v = value) :=
    ⟨h.add hno value 1, fun k v => holds_add⟩
  cases found with
  | nothing => exact ⟨_, rfl, hplain.1, hghost, rfl, rfl, hplain.2⟩
  | replaced p => exact ⟨_, rfl, hplain.1, hghost, rfl, rfl, hplain.2⟩
  | revived q =>
    obtain ⟨e, he, halive⟩ := hrevived q rfl
    refine ⟨(c.drop q).add key value (e.freq + 1), by simp [addFound, he],
      (h.drop he halive).add ((less_drop c q).noAlive hno) value _, ?_, rfl, rfl, fun k v hkv => ?_⟩
    · change c.ghostListSize - 1 ≤ c.capacity + 1
      omega
    · exact (holds_add hkv).imp_left (less_drop c q).holds

/-- The end of `cache_put`. -/
theorem putNew_ok (h : c.Wf) (hno : c.NoAlive key) (hrevived : c.RevivedOk found) (value : V)
    (hsize : c.size < c.capacity) (hghost : c.ghostListSize ≤ c.capacity + 1) :
    ∃ c', c.putNew found key value = some c' ∧ c'.Wf ∧ c'.size ≤ c'.capacity ∧
      c'.ghostListSize ≤ c'.capacity ∧ c'.capacity = c.capacity ∧
      ∀ k v, c'.Holds k v → c.Holds k v ∨ (k = key ∧ v = value) := by
  obtain ⟨c1, h1, hwf1, hghost1, hsize1, hcap1, hholds1⟩ := addFound_ok h hno hrevived value hghost
  obtain ⟨c2, h2, hwf2, hghost2, hsize2, hcap2, hless⟩ :=
    cacheGhostListUpdate_ok hwf1 (by rw [hcap1]; exact hghost1)
  have hbounds : c2.size ≤ c2.capacity ∧ c2.ghostListSize ≤ c2.capacity := by
    rw [hcap2]
    exact ⟨by omega, hghost2⟩
  refine ⟨c2, ?_, hwf2, hbounds.1, hbounds.2, hcap2.trans hcap1, fun k v hkv => hholds1 k v (hless.holds hkv)⟩
  simp [putNew, h1, h2, hbounds]

theorem RevivedOk.retire (h : c.RevivedOk found) (p : EntryPtr) (e : CacheEntry V) :
    (c.retire p e).RevivedOk found := by
  intro q hq
  obtain ⟨d, hd, halive⟩ := h q hq
  by_cases hqp : q = p
  · exact ⟨{ e with alive := false }, by rw [hqp]; exact Function.update_self _ _ _, rfl⟩
  · exact ⟨d, (Function.update_of_ne hqp _ _).trans hd, halive⟩

theorem noAlive_retire {p : EntryPtr} {e : CacheEntry V}
    (h : ∀ q ≠ p, ∀ d, c.entry q = some d → d.key = key → d.alive = false) :
    (c.retire p e).NoAlive key := by
  intro q d hd hkey
  change Function.update c.entry p _ q = some d at hd
  by_cases hq : q = p
  · rw [hq, Function.update_self] at hd
    cases hd
    rfl
  · rw [Function.update_of_ne hq] at hd
    exact h q hq d hd hkey

/-- The entry that is taken out is alive; if there is none, there is room. -/
theorem victim_cases (h : c.Wf) (hcap : 0 < c.capacity) (hsize : c.size ≤ c.capacity)
    (hreplaced : c.ReplacedOk found) :
    (c.victim found = some none ∧ c.size < c.capacity ∧ ∀ p, found ≠ .replaced p) ∨
      ∃ p e, c.victim found = some (some p) ∧ c.entry p = some e ∧ e.alive = true ∧
        ∀ q, found = .replaced q → q = p := by
  have holdest : (∀ p, found ≠ .replaced p) →
      (if c.size = c.capacity then c.list.getLast?.map some else some none) = c.victim found := by
    intro hne
    cases found with
    | replaced p => exact absurd rfl (hne p)
    | nothing => rfl
    | revived p => rfl
  by_cases hfound : ∃ p, found = .replaced p
  · obtain ⟨p, rfl⟩ := hfound
    obtain ⟨e, he, halive⟩ := hreplaced p rfl
    exact .inr ⟨p, e, rfl, he, halive, fun q hq => by cases hq; rfl⟩
  · have hne : ∀ p, found ≠ .replaced p := fun p hp => hfound ⟨p, hp⟩
    rw [← holdest hne]
    split_ifs with hfull
    · have hnil : c.list ≠ [] := by
        intro hnil
        have heq := h.size_eq
        rw [hnil, List.length_nil] at heq
        omega
      obtain ⟨e, he, halive⟩ := Option.map_eq_some_iff.mp ((h.mem_list _).mp (List.getLast_mem hnil))
      refine .inr ⟨c.list.getLast hnil, e, ?_, he, halive, fun q hq => absurd hq (hne q)⟩
      rw [List.getLast?_eq_some_getLast hnil, Option.map_some]
    · exact .inl ⟨rfl, by omega, hne⟩

/-- **One call of `cache_put`** that finds no entry of the key with the same value. -/
theorem cachePut_found [DecidableEq V] (h : c.Wf) (hcap : 0 < c.capacity) (hsize : c.size ≤ c.capacity)
    (hghost : c.ghostListSize ≤ c.capacity) (hfind : c.findPut key value (c.bucket (c.hash key)) = some found)
    (alloc : Bool) :
    ∃ r c', c.cachePut key value alloc = some (r, c') ∧ c'.Wf ∧ c'.size ≤ c'.capacity ∧
      c'.ghostListSize ≤ c'.capacity ∧ c'.capacity = c.capacity ∧
      ∀ k v, c'.Holds k v → c.Holds k v ∨ (alloc = true ∧ k = key ∧ v = value) := by
  obtain ⟨hrevived, hreplaced, hothers⟩ := findPut_some (h.bucket_entry _) (h.order _) hfind
  have hothers' : ∀ p, found ≠ .replaced p → ∀ e, c.entry p = some e → e.key = key → e.alive = false :=
    fun p hne e he hkey => hothers p (hkey ▸ h.mem_own_bucket he) hne e he hkey
  obtain ⟨hvictim, hroom, hne⟩ | ⟨p, e, hvictim, he, halive, hp⟩ := victim_cases h hcap hsize hreplaced
  · cases alloc with
    | false =>
      refine ⟨none, c, ?_, h, hsize, hghost, rfl, fun k v hkv => .inl hkv⟩
      simp [cachePut, hsize, hfind, hvictim]
    | true =>
      obtain ⟨c', hput, hwf, hsize', hghost', hcap', hholds⟩ :=
        putNew_ok h (fun q => hothers' q (hne q)) hrevived value hroom (by omega)
      refine ⟨none, c', ?_, hwf, hsize', hghost', hcap', fun k v hkv => ?_⟩
      · simp [cachePut, hsize, hfind, hvictim, hput]
      · exact (hholds k v hkv).imp_right fun hkv => ⟨rfl, hkv⟩
  · cases alloc with
    | false =>
      have heq := h.retire_restore he halive
      refine ⟨none, (c.retire p e).restore p e, ?_, h.restore he halive, ?_⟩
      · simp [cachePut, hsize, hfind, hvictim, he, halive]
      · rw [heq]
        exact ⟨hsize, hghost, rfl, fun k v hkv => .inl hkv⟩
    | true =>
      have hno : (c.retire p e).NoAlive key :=
        noAlive_retire fun q hq => hothers' q fun hrep => hq (hp q hrep)
      have hpos : 0 < c.size := by
        rw [h.size_eq]
        exact List.length_pos_of_mem (h.alive_mem he halive)
      obtain ⟨c', hput, hwf, hsize', hghost', hcap', hholds⟩ :=
        putNew_ok (h.retire he halive) hno (hrevived.retire p e) value
          (show c.size - 1 < c.capacity by omega) (show c.ghostListSize + 1 ≤ c.capacity + 1 by omega)
      refine ⟨some e.value, c', ?_, hwf, hsize', hghost', hcap', fun k v hkv => ?_⟩
      · simp [cachePut, hsize, hfind, hvictim, he, halive, hput]
      · exact (hholds k v hkv).imp (less_retire he).holds fun hkv => ⟨rfl, hkv⟩

/-- **One call of `cache_put`** with a value that no entry of the key has. -/
theorem cachePut_ok [DecidableEq V] (h : c.Wf) (hcap : 0 < c.capacity) (hsize : c.size ≤ c.capacity)
    (hghost : c.ghostListSize ≤ c.capacity) (hnew : ¬ c.Holds key value) (alloc : Bool) :
    ∃ r c', c.cachePut key value alloc = some (r, c') ∧ c'.Wf ∧ c'.size ≤ c'.capacity ∧
      c'.ghostListSize ≤ c'.capacity ∧ c'.capacity = c.capacity ∧
      ∀ k v, c'.Holds k v → c.Holds k v ∨ (alloc = true ∧ k = key ∧ v = value) := by
  cases hfind : c.findPut key value (c.bucket (c.hash key)) with
  | none => exact absurd (findPut_none (h.bucket_entry _) hfind) hnew
  | some found => exact cachePut_found h hcap hsize hghost hfind alloc

end Put

/-! ## The invariant -/

/-- The representation invariant with its bounds. An entry of `list` or `ghostList` is there once, and
so is an entry of a bucket (`Wf`). -/
structure Repr (c : Cache V) : Prop extends c.Wf where
  size_le : c.size ≤ c.capacity
  ghost_le : c.ghostListSize ≤ c.capacity
  /-- A key has at most one alive entry. -/
  one_alive : ∀ p q e e', c.entry p = some e → c.entry q = some e' → e.alive = true → e'.alive = true →
    e.key = e'.key → p = q
  /-- It comes before the ghosts of its key. -/
  precedes : ∀ p q e e', c.entry p = some e → c.entry q = some e' → e.alive = true → e'.alive = false →
    e.key = e'.key → [p, q].Sublist (c.bucket (c.hash e.key))

section Repr

variable {c : Cache V} {p q : EntryPtr} {e e' : CacheEntry V}

theorem sublist_pair {l : List EntryPtr} (hp : p ∈ l) (hq : q ∈ l) (hne : p ≠ q) :
    [p, q].Sublist l ∨ [q, p].Sublist l := by
  induction l with
  | nil => cases hp
  | cons a l ih =>
    obtain rfl | hp' := List.mem_cons.mp hp
    · have hq' := (List.mem_cons.mp hq).resolve_left (Ne.symm hne)
      exact .inl (List.Sublist.cons_cons _ (List.singleton_sublist.mpr hq'))
    · obtain rfl | hq' := List.mem_cons.mp hq
      · exact .inr (List.Sublist.cons_cons _ (List.singleton_sublist.mpr hp'))
      · exact (ih hp' hq').imp (List.Sublist.cons a) (List.Sublist.cons a)

/-- An alive entry comes before any other entry of its key. -/
theorem Wf.alive_first (h : c.Wf) (hp : c.entry p = some e) (hq : c.entry q = some e')
    (halive : e.alive = true) (hkey : e.key = e'.key) (hne : p ≠ q) :
    [p, q].Sublist (c.bucket (c.hash e.key)) := by
  obtain hsub | hsub := sublist_pair (h.mem_own_bucket hp) (hkey ▸ h.mem_own_bucket hq) hne
  · exact hsub
  · have hbefore := List.pairwise_iff_forall_sublist.mp (h.order _) hsub
    rw [hbefore e' e hq hp hkey.symm] at halive
    cases halive

theorem Wf.repr (h : c.Wf) (hsize : c.size ≤ c.capacity) (hghost : c.ghostListSize ≤ c.capacity) : c.Repr := by
  refine ⟨h, hsize, hghost, fun p q e e' hp hq halive halive' hkey => ?_, fun p q e e' hp hq halive halive' hkey => ?_⟩
  · by_contra hne
    have hsub := h.alive_first hp hq halive hkey hne
    have hbefore := List.pairwise_iff_forall_sublist.mp (h.order _) hsub
    rw [hbefore e e' hp hq hkey] at halive'
    cases halive'
  · refine h.alive_first hp hq halive hkey ?_
    rintro rfl
    rw [hp] at hq
    cases hq
    rw [halive] at halive'
    cases halive'

/-- What `cache_get` looks at. -/
theorem firstOf_some {key : Word} {l : List EntryPtr} (h : c.firstOf key l = some (p, e)) :
    p ∈ l ∧ c.entry p = some e ∧ e.key = key := by
  induction l with
  | nil => cases h
  | cons q l ih =>
    unfold firstOf at h
    split at h
    · cases h
    · rename_i d hd
      split_ifs at h with hkey
      · cases h
        exact ⟨List.mem_cons_self, hd, hkey⟩
      · obtain ⟨hmem, hrest⟩ := ih h
        exact ⟨List.mem_cons_of_mem q hmem, hrest⟩

/-- **One call of `cache_get`** changes frequencies only. -/
theorem Wf.cacheGet (h : c.Wf) (key : Word) (update : Bool) :
    (c.cacheGet key update).2.Wf ∧ (c.cacheGet key update).2.size = c.size ∧
      (c.cacheGet key update).2.ghostListSize = c.ghostListSize ∧
      (c.cacheGet key update).2.capacity = c.capacity ∧
      ∀ k v, (c.cacheGet key update).2.Holds k v → c.Holds k v := by
  unfold Cache.cacheGet
  split
  · exact ⟨h, rfl, rfl, rfl, fun k v hkv => hkv⟩
  · rename_i p e hfirst
    obtain ⟨-, hp, -⟩ := firstOf_some hfirst
    split_ifs
    · exact ⟨h, rfl, rfl, rfl, fun k v hkv => hkv⟩
    · refine ⟨h.setFreq hp _, rfl, rfl, rfl, fun k v hkv => ?_⟩
      obtain ⟨q, d, hd, rfl, rfl⟩ := hkv
      change Function.update c.entry p _ q = some d at hd
      by_cases hq : q = p
      · rw [hq, Function.update_self] at hd
        cases hd
        exact ⟨p, e, hp, rfl, rfl⟩
      · rw [Function.update_of_ne hq] at hd
        exact ⟨q, d, hd, rfl, rfl⟩
    · exact ⟨h, rfl, rfl, rfl, fun k v hkv => hkv⟩

/-- The first entry of a key is its alive one, if it has one. -/
theorem firstOf_alive {l : List EntryPtr} (hl : ∀ q ∈ l, ∃ d, c.entry q = some d)
    (horder : l.Pairwise c.Before) (hp : c.entry p = some e) (halive : e.alive = true) (hmem : p ∈ l) :
    c.firstOf e.key l = some (p, e) := by
  induction l with
  | nil => cases hmem
  | cons q l ih =>
    obtain ⟨d, hd⟩ := hl q List.mem_cons_self
    obtain ⟨hfirst, hrest⟩ := List.pairwise_cons.mp horder
    simp only [firstOf, hd]
    obtain rfl | hmem' := List.mem_cons.mp hmem
    · rw [hp] at hd
      cases hd
      rw [if_pos rfl]
    · rw [if_neg, ih (fun r hr => hl r (List.mem_cons_of_mem q hr)) hrest hmem']
      intro hkey
      rw [hfirst p hmem' d e hd hp hkey] at halive
      cases halive

/-- **`cache_get` finds the alive entry of a key.** -/
theorem Wf.cacheGet_iff (h : c.Wf) (key : Word) (update : Bool) (v : V) :
    (c.cacheGet key update).1 = some v ↔
      ∃ p e, c.entry p = some e ∧ e.alive = true ∧ e.key = key ∧ e.value = v := by
  constructor
  · intro hget
    unfold Cache.cacheGet at hget
    split at hget
    · cases hget
    · rename_i p e hfirst
      obtain ⟨-, hp, hkey⟩ := firstOf_some hfirst
      split_ifs at hget with halive
      · cases hget
        exact ⟨p, e, hp, by simpa using halive, hkey, rfl⟩
      · cases hget
        exact ⟨p, e, hp, by simpa using halive, hkey, rfl⟩
  · rintro ⟨p, e, hp, halive, rfl, rfl⟩
    unfold Cache.cacheGet
    rw [firstOf_alive (h.bucket_entry _) (h.order _) hp halive (h.mem_own_bucket hp)]
    simp [halive]

end Repr

end Cache

/-! ## Sequences of calls -/

section Run

variable {V : Type} [DecidableEq V]

/-- The second call puts the value that the first one has put under the same key. -/
def CacheOp.repeats : CacheOp V → CacheOp V → Bool
  | .put key value true, .put key' value' _ => key = key' ∧ value = value'
  | _, _ => false

def DistinctValues (ops : List (CacheOp V)) : Prop := ops.Pairwise fun a b => a.repeats b = false

theorem cacheRun_ok {ops : List (CacheOp V)} {c : Cache V} (h : c.Wf) (hcap : 0 < c.capacity)
    (hsize : c.size ≤ c.capacity) (hghost : c.ghostListSize ≤ c.capacity) (hops : DistinctValues ops)
    (hnew : ∀ key value alloc, CacheOp.put key value alloc ∈ ops → ¬ c.Holds key value) :
    ∃ c', cacheRun ops c = some c' ∧ c'.Repr := by
  induction ops generalizing c with
  | nil => exact ⟨c, rfl, h.repr hsize hghost⟩
  | cons op ops ih =>
    obtain ⟨hfirst, hrest⟩ := List.pairwise_cons.mp hops
    have hlater : ∀ key value alloc, CacheOp.put key value alloc ∈ ops → ¬ c.Holds key value :=
      fun key value alloc hmem => hnew key value alloc (List.mem_cons_of_mem op hmem)
    cases op with
    | get key update =>
      obtain ⟨hwf, hsize', hghost', hcap', hholds⟩ := h.cacheGet key update
      refine ih hwf (by omega) (by omega) (by omega) hrest fun k v alloc hmem hkv => ?_
      exact hlater k v alloc hmem (hholds k v hkv)
    | put key value alloc =>
      obtain ⟨r, c', hput, hwf, hsize', hghost', hcap', hholds⟩ :=
        Cache.cachePut_ok h hcap hsize hghost (hnew key value alloc List.mem_cons_self) alloc
      have hgo := ih hwf (by omega) hsize' hghost' hrest fun k v alloc' hmem hkv => by
        obtain hkv | ⟨rfl, rfl, rfl⟩ := hholds k v hkv
        · exact hlater k v alloc' hmem hkv
        · have hrep := hfirst _ hmem
          simp [CacheOp.repeats] at hrep
      obtain ⟨c'', hrun, hrepr⟩ := hgo
      exact ⟨c'', by simp [cacheRun, hput, hrun], hrepr⟩

/-- **The representation invariant holds after every sequence of calls.** -/
theorem cacheRun_repr (system : Bool) (bits : Nat) {c : Cache V} (hc : cacheCreate V system bits = some c)
    (ops : List (CacheOp V)) (hops : DistinctValues ops) : ∃ c', cacheRun ops c = some c' ∧ c'.Repr := by
  have hwf := Cache.Wf.create hc
  unfold cacheCreate at hc
  split_ifs at hc
  cases hc
  refine cacheRun_ok hwf (Nat.two_pow_pos bits) (Nat.zero_le _) (Nat.zero_le _) hops ?_
  rintro key value alloc - ⟨p, e, he, -⟩
  cases he

/-- An eviction, a ghost that comes back, a value replaced twice, a failed allocation. -/
theorem cacheRun_repr_four :
    ∃ c', cacheRun [.put 1 10 true, .put 2 20 true, .put 3 30 true, .put 1 11 true, .get 1 true, .put 1 12 true,
        .put 4 40 false, .put 4 40 true] (⟨cacheHash false 1, 2, fun _ => none, [], [], fun _ => [], 0, 0, 0⟩ :
        Cache Nat) = some c' ∧ c'.Repr :=
  cacheRun_repr false 1 rfl _ (by unfold DistinctValues; decide)

end Run

end Rv32emu
