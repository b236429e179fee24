import Mathlib.Algebra.Group.Nat.Defs
import Rv32emu.MapSound

/-!
# The map over whole runs

* `Sorted`, `findNode_iff` : the order of the keys, and what a search finds;
* `RbMap.Wf` : the invariant of a map, kept by `mapInsert`, `mapErase` and `mapClear`;
* `MapRun` : the maps that operations lead to, with what has happened to them;
* `mapRun_redBlack`, `mapRun_finiteMap` : the red-black properties, and the finite map, over every run.
-/

namespace Rv32emu

open MapTree Std

variable {K V : Type} {cmp : K → K → Ordering}

/-! ## Order -/

/-- The keys of a list of nodes ascend strictly. -/
def Sorted (cmp : K → K → Ordering) (l : List (MapNode K V)) : Prop :=
  l.Pairwise fun x y => cmp x.key y.key = .lt

theorem sorted_node {l r : MapTree K V} {x : MapNode K V} {c : MapColor} :
    Sorted cmp (MapTree.node c l x r).toList ↔
      Sorted cmp l.toList ∧ Sorted cmp r.toList ∧ (∀ y ∈ r.toList, cmp x.key y.key = .lt) ∧
        (∀ y ∈ l.toList, cmp y.key x.key = .lt) ∧ ∀ y ∈ l.toList, ∀ z ∈ r.toList, cmp y.key z.key = .lt := by
  simp only [Sorted, toList, List.pairwise_append, List.pairwise_cons, List.mem_cons]
  constructor
  · rintro ⟨hl, ⟨hx, hr⟩, h⟩
    exact ⟨hl, hr, hx, fun y hy => h y hy x (.inl rfl), fun y hy z hz => h y hy z (.inr hz)⟩
  · rintro ⟨hl, hr, hx, hlx, hlr⟩
    refine ⟨hl, ⟨hx, hr⟩, fun y hy z hz => ?_⟩
    rcases hz with rfl | hz
    · exact hlx y hy
    · exact hlr y hy z hz

/-- The nodes after a new one has been put between the two sides of a path. -/
theorem sorted_insert {x : MapNode K V} {u v : List (MapNode K V)} (h : Sorted cmp (u ++ v))
    (hu : ∀ y ∈ u, cmp y.key x.key = .lt) (hv : ∀ y ∈ v, cmp x.key y.key = .lt) :
    Sorted cmp (u ++ x :: v) := by
  simp only [Sorted, List.pairwise_append, List.pairwise_cons, List.mem_cons] at h ⊢
  obtain ⟨hsu, hsv, huv⟩ := h
  refine ⟨hsu, ⟨hv, hsv⟩, fun y hy z hz => ?_⟩
  rcases hz with rfl | hz
  · exact hu y hy
  · exact huv y hy z hz

theorem Sorted.of_insert {x : MapNode K V} {u v : List (MapNode K V)} (h : Sorted cmp (u ++ x :: v)) :
    Sorted cmp (u ++ v) :=
  h.sublist (List.Sublist.append_left (List.sublist_cons_self ..) u)

section Search

variable [TransCmp cmp]

/-- A key that compares equal to one node compares with the others as the node does. -/
theorem cmp_of_eq_left {a b c : K} (h : cmp a b = .eq) : cmp a c = cmp b c := TransCmp.congr_left h

theorem cmp_gt_of_lt {a b : K} (h : cmp a b = .lt) : cmp b a = .gt := OrientedCmp.gt_of_lt h

/-- **A search finds exactly the node with the key.** -/
theorem findNode_iff {t : MapTree K V} (h : Sorted cmp t.toList) (key : K) (x : MapNode K V) :
    findNode cmp key t = some x ↔ x ∈ t.toList ∧ cmp key x.key = .eq := by
  induction t with
  | nil => simp [findNode, toList]
  | node c l y r ihl ihr =>
    obtain ⟨hl, hr, hyr, hly, -⟩ := sorted_node.mp h
    simp only [findNode, toList, List.mem_append, List.mem_cons]
    cases hcmp : cmp key y.key with
    | eq =>
      constructor
      · intro hx
        obtain rfl := Option.some_inj.mp hx
        exact ⟨.inr (.inl rfl), hcmp⟩
      · rintro ⟨hx, heq⟩
        have hyx : cmp y.key x.key = .eq := by rw [← cmp_of_eq_left hcmp, heq]
        rcases hx with hx | rfl | hx
        · rw [OrientedCmp.eq_comm, hly x hx] at hyx
          cases hyx
        · rfl
        · rw [hyr x hx] at hyx
          cases hyx
    | lt =>
      rw [ihl hl]
      refine and_congr_left fun heq => ⟨.inl, fun hx => ?_⟩
      rcases hx with hx | rfl | hx
      · exact hx
      · rw [heq] at hcmp
        cases hcmp
      · have hlt := TransCmp.lt_trans hcmp (hyr x hx)
        rw [heq] at hlt
        cases hlt
    | gt =>
      rw [ihr hr]
      refine and_congr_left fun heq => ⟨fun hx => .inr (.inr hx), fun hx => ?_⟩
      rcases hx with hx | rfl | hx
      · have hlt := TransCmp.lt_trans (hly x hx) (OrientedCmp.lt_of_gt hcmp)
        have hgt := cmp_gt_of_lt hlt
        rw [heq] at hgt
        cases hgt
      · rw [heq] at hcmp
        cases hcmp
      · exact hx

theorem findNode_eq_none_iff {t : MapTree K V} (h : Sorted cmp t.toList) (key : K) :
    findNode cmp key t = none ↔ ∀ x ∈ t.toList, cmp key x.key ≠ .eq := by
  rw [Option.eq_none_iff_forall_ne_some]
  constructor
  · intro hnone x hx heq
    exact hnone x ((findNode_iff h key x).mpr ⟨hx, heq⟩)
  · intro hne x hx
    obtain ⟨hmem, heq⟩ := (findNode_iff h key x).mp hx
    exact hne x hmem heq

/-- Two trees that differ by one node answer alike but for its key. -/
theorem findNode_add {t t' : MapTree K V} {x : MapNode K V} {u v : List (MapNode K V)}
    (h : Sorted cmp t'.toList) (hold : t.toList = u ++ v) (hnew : t'.toList = u ++ x :: v) (key : K) :
    findNode cmp key t' = if cmp key x.key = .eq then some x else findNode cmp key t := by
  have hs : Sorted cmp t.toList := by
    rw [hnew] at h
    rw [hold]
    exact h.of_insert
  split_ifs with heq
  · exact (findNode_iff h key x).mpr ⟨by simp [hnew], heq⟩
  · refine Option.ext fun y => ?_
    rw [findNode_iff h, findNode_iff hs, hold, hnew]
    refine and_congr_left fun hy => ?_
    have hne : y ≠ x := by
      rintro rfl
      exact heq hy
    simp [hne]

/-- A key that one node has is the key of no other node. -/
theorem findNode_drop {t t' : MapTree K V} {x : MapNode K V} {u v : List (MapNode K V)}
    (h : Sorted cmp t.toList) (hold : t.toList = u ++ x :: v) (hnew : t'.toList = u ++ v) {key : K}
    (heq : cmp key x.key = .eq) : findNode cmp key t' = none := by
  rw [hold] at h
  have hs : Sorted cmp t'.toList := by
    rw [hnew]
    exact h.of_insert
  obtain ⟨-, hxv, hux⟩ := List.pairwise_append.mp h
  rw [findNode_eq_none_iff hs, hnew]
  intro y hy hky
  have hxy : cmp x.key y.key = .eq := by rw [← cmp_of_eq_left heq, hky]
  rcases List.mem_append.mp hy with hy | hy
  · have hlt := hux y hy x (by simp)
    rw [OrientedCmp.eq_comm, hlt] at hxy
    cases hxy
  · have hlt := (List.pairwise_cons.mp hxv).1 y hy
    rw [hlt] at hxy
    cases hxy

end Search

/-! ## The place of a new key -/

def height : MapTree K V → Nat
  | .nil => 0
  | .node _ l _ r => max (height l) (height r) + 1

/-- `key` lies between the two sides of a path. -/
structure Between (cmp : K → K → Ordering) (key : K) (path : List (Frame K V)) : Prop where
  before : ∀ y ∈ before path, cmp y.key key = .lt
  after : ∀ y ∈ after path, cmp key y.key = .lt

section Place

variable [TransCmp cmp] {key : K} {c : MapColor} {l r : MapTree K V} {x : MapNode K V}
  {path : List (Frame K V)}

theorem Between.left (h : Between cmp key path) (hlt : cmp key x.key = .lt)
    (hr : ∀ y ∈ r.toList, cmp x.key y.key = .lt) : Between cmp key (⟨true, c, x, r⟩ :: path) where
  before y hy := h.before y (by simpa [Rv32emu.before] using hy)
  after y hy := by
    simp only [Rv32emu.after, if_true, List.cons_append, List.mem_cons, List.mem_append] at hy
    rcases hy with rfl | hy | hy
    · exact hlt
    · exact TransCmp.lt_trans hlt (hr y hy)
    · exact h.after y hy

theorem Between.right (h : Between cmp key path) (hgt : cmp key x.key = .gt)
    (hl : ∀ y ∈ l.toList, cmp y.key x.key = .lt) : Between cmp key (⟨false, c, x, l⟩ :: path) where
  before y hy := by
    have hlt := OrientedCmp.lt_of_gt hgt
    simp only [Rv32emu.before, Bool.false_eq_true, if_false, List.mem_append, List.mem_singleton] at hy
    rcases hy with hy | hy | rfl
    · exact h.before y hy
    · exact TransCmp.lt_trans (hl y hy) hlt
    · exact hlt
  after y hy := h.after y (by simpa [Rv32emu.after] using hy)

/-- A path that ends at a free link for `key`, in place of the nodes `l`. -/
structure FreeAt (cmp : K → K → Ordering) (key : K) (path : List (Frame K V)) (l : List (MapNode K V)) :
    Prop where
  hole : ∃ red, Hole path red 0
  between : Between cmp key path
  nodes : before path ++ after path = l

/-- **`rb_insert_unique`** finds the key, or the link where it belongs, or gives up. -/
theorem insertUnique_spec {t : MapTree K V} {red : Bool} {n : Nat} (h : Hole path red n)
    (ht : Fits t red n) (hs : Sorted cmp t.toList) (hb : Between cmp key path) :
    match insertUnique cmp key t path with
    | .found x => findNode cmp key t = some x
    | .tooDeep => rbMaxDepth - 1 ≤ path.length + height t
    | .free path' =>
      findNode cmp key t = none ∧ FreeAt cmp key path' (before path ++ (t.toList ++ after path)) := by
  induction t generalizing path red n with
  | nil =>
    unfold insertUnique
    split_ifs with hdeep
    · exact Nat.le_trans hdeep (Nat.le_add_right ..)
    · refine ⟨rfl, ⟨red, ?_⟩, hb, rfl⟩
      obtain ⟨c', hnil, -⟩ := ht
      cases hnil
      exact h
  | node c l x r ihl ihr =>
    obtain ⟨hl, hr, hxr, hlx, -⟩ := sorted_node.mp hs
    unfold insertUnique findNode
    split_ifs with hdeep
    · exact Nat.le_trans hdeep (Nat.le_add_right ..)
    · cases hcmp : cmp key x.key with
      | eq => rfl
      | lt =>
        obtain ⟨red', n', hleft, hfits⟩ := h.left ht
        have := ihl hleft hfits hl (hb.left hcmp hxr)
        revert this
        simp only
        cases insertUnique cmp key l (⟨true, c, x, r⟩ :: path) with
        | found y => exact id
        | tooDeep =>
          simp only [List.length_cons, height]
          omega
        | free path' =>
          rintro ⟨hnone, hfree⟩
          refine ⟨hnone, hfree.hole, hfree.between, ?_⟩
          rw [hfree.nodes]
          simp [before, after, toList]
      | gt =>
        obtain ⟨n', hright, hbal⟩ := h.right ht x
        have := ihr hright (hbal.fits _) hr (hb.right hcmp hlx)
        revert this
        simp only
        cases insertUnique cmp key r (⟨false, c, x, l⟩ :: path) with
        | found y => exact id
        | tooDeep =>
          simp only [List.length_cons, height]
          omega
        | free path' =>
          rintro ⟨hnone, hfree⟩
          refine ⟨hnone, hfree.hole, hfree.between, ?_⟩
          rw [hfree.nodes]
          simp [before, after, toList]

theorem rbRemove_spec {it : MapNode K V} {t : MapTree K V} {red : Bool} {n : Nat} (h : Hole path red n)
    (ht : Fits t red n) (hs : Sorted cmp t.toList) (hit : it ∈ t.toList) :
    ∃ t' m u v, rbRemove cmp it t path = some t' ∧ Balanced t' .black m ∧ t.toList = u ++ it :: v ∧
      t'.toList = before path ++ (u ++ v ++ after path) := by
  induction t generalizing path red n with
  | nil => cases hit
  | node c l x r ihl ihr =>
    obtain ⟨hl, hr, hxr, hlx, -⟩ := sorted_node.mp hs
    simp only [toList, List.mem_append, List.mem_cons] at hit
    unfold rbRemove
    rcases hit with hit | rfl | hit
    · rw [hlx it hit]
      obtain ⟨red', n', hleft, hfits⟩ := h.left ht
      obtain ⟨t', m, u, v, hrem, hm, hlist, hres⟩ := ihl hleft hfits hl hit
      refine ⟨t', m, u, v ++ x :: r.toList, hrem, hm, ?_, ?_⟩
      · simp [toList, hlist]
      · simpa [before, after] using hres
    · have hself : cmp it.key it.key = .eq := ReflCmp.compare_self
      rw [hself]
      simp only [if_true]
      obtain ⟨t', m, hrem, hm, hres⟩ := removeAt_spec h ht
      exact ⟨t', m, l.toList, r.toList, hrem, hm, rfl, hres⟩
    · rw [cmp_gt_of_lt (hxr it hit)]
      obtain ⟨n', hright, hbal⟩ := h.right ht x
      obtain ⟨t', m, u, v, hrem, hm, hlist, hres⟩ := ihr hright (hbal.fits _) hr hit
      refine ⟨t', m, l.toList ++ x :: u, v, hrem, hm, ?_, ?_⟩
      · simp [toList, hlist]
      · simpa [before, after] using hres

end Place

/-! ## The invariant -/

structure RbMap.Wf (cmp : K → K → Ordering) (m : RbMap K V) : Prop where
  balanced : ∃ n, Balanced m.root .black n
  sorted : Sorted cmp m.root.toList
  size : m.size = m.root.toList.length

theorem RbMap.wf_new : ({} : RbMap K V).Wf cmp where
  balanced := ⟨0, .nil⟩
  sorted := List.Pairwise.nil
  size := rfl

theorem between_root (key : K) : Between cmp key ([] : List (Frame K V)) where
  before y hy := by cases hy
  after y hy := by cases hy

theorem Balanced.paint_black {t : MapTree K V} {c : MapColor} {n : Nat} (h : Balanced t c n)
    (hne : t.toList ≠ []) : ∃ t' m, t.paint .black = some t' ∧ Balanced t' .black m ∧ t'.toList = t.toList := by
  cases h with
  | nil => exact absurd rfl hne
  | black hl hr => exact ⟨_, _, rfl, .black hl hr, rfl⟩
  | red hl hr => exact ⟨_, _, rfl, .black hl hr, rfl⟩

/-- The number of nodes on a path, and of nodes altogether, by the black height. -/
theorem Balanced.height_le {t : MapTree K V} {c : MapColor} {n : Nat} (h : Balanced t c n) :
    height t ≤ 2 * n + (if c = .red then 1 else 0) ∧ 2 ^ n ≤ t.toList.length + 1 := by
  induction h with
  | nil => simp [height, toList]
  | @black l r x c n hl hr ihl ihr =>
    have hpow : 2 ^ (n + 1) = 2 ^ n + 2 ^ n := by
      rw [Nat.pow_succ]
      omega
    simp only [height, toList, List.length_append, List.length_cons, reduceCtorEq, if_false] at ihl ihr ⊢
    split_ifs at ihl <;> omega
  | @red l r x n hl hr ihl ihr =>
    simp only [height, toList, List.length_append, List.length_cons, reduceCtorEq, if_false, if_true]
      at ihl ihr ⊢
    omega

section Wf

variable [TransCmp cmp] {m : RbMap K V}

/-- How `map_insert` ends. -/
inductive Inserted (cmp : K → K → Ordering) (m : RbMap K V) (key : K) (val : V) :
    Option MapAddr → Bool × RbMap K V → Prop
  | present (mem : Option MapAddr) {x : MapNode K V} (hfind : mapFind cmp m key = some x) :
      Inserted cmp m key val mem (false, m)
  /-- The tree is deeper than the array `path`, or there is no memory. -/
  | refused (mem : Option MapAddr) (hfind : mapFind cmp m key = none)
      (hwhy : mem = none ∨ 2 ^ 64 ≤ m.size + 1) : Inserted cmp m key val mem (false, m)
  | added (addr : MapAddr) {m' : RbMap K V} {u v : List (MapNode K V)} (hfind : mapFind cmp m key = none)
      (hwf : m'.Wf cmp) (hold : m.root.toList = u ++ v) (hnew : m'.root.toList = u ++ ⟨addr, key, val⟩ :: v) :
      Inserted cmp m key val (some addr) (true, m')

theorem RbMap.Wf.insert (h : m.Wf cmp) (key : K) (val : V) (mem : Option MapAddr) :
    ∃ res, mapInsert cmp m key val mem = some res ∧ Inserted cmp m key val mem res := by
  obtain ⟨n, hn⟩ := h.balanced
  have hspec := insertUnique_spec (Hole.root n) (hn.fits false) h.sorted (between_root key)
  unfold mapInsert
  cases hpoint : insertUnique cmp key m.root [] with
  | found x =>
    rw [hpoint] at hspec
    exact ⟨_, rfl, .present mem hspec⟩
  | tooDeep =>
    rw [hpoint] at hspec
    refine ⟨_, rfl, ?_⟩
    cases hfind : mapFind cmp m key with
    | some x => exact .present mem hfind
    | none =>
      refine .refused mem hfind (.inr ?_)
      obtain ⟨hheight, hcount⟩ := hn.height_le
      simp only [reduceCtorEq, if_false, rbMaxDepth, List.length_nil] at hheight hspec
      have hpow : 2 ^ 64 ≤ 2 ^ n := Nat.pow_le_pow_right (by decide) (by omega)
      rw [h.size]
      exact Nat.le_trans hpow hcount
  | free path =>
    rw [hpoint] at hspec
    obtain ⟨hnone, ⟨red, hhole⟩, hbetween, hnodes⟩ := hspec
    cases mem with
    | none => exact ⟨_, rfl, .refused none hnone (.inl rfl)⟩
    | some addr =>
      obtain ⟨c, t, k, hfix, hbal, hlist⟩ := insertFix_spec hhole
        (Grown.balanced (Balanced.red (x := ⟨addr, key, val⟩) .nil .nil) node_ne_nil)
      have hlist' : t.toList = before path ++ ⟨addr, key, val⟩ :: after path := hlist
      obtain ⟨root, k', hpaint, hroot, hsame⟩ := hbal.paint_black (by simp [hlist'])
      have hold : m.root.toList = before path ++ after path := by
        rw [hnodes]
        simp [before, after]
      refine ⟨(true, { root, size := m.size + 1 }), ?_, .added addr hnone ?_ hold (hsame.trans hlist')⟩
      · simp [hfix, hpaint]
      · refine ⟨⟨k', hroot⟩, ?_, ?_⟩
        · rw [hsame, hlist']
          exact sorted_insert (hold ▸ h.sorted) hbetween.before hbetween.after
        · rw [hsame, hlist', h.size, hold]
          simp
          omega

theorem RbMap.Wf.erase (h : m.Wf cmp) {x : MapNode K V} (hx : x ∈ m.root.toList) :
    ∃ m' u v, mapErase cmp m (some x) = some m' ∧ m'.Wf cmp ∧ m.root.toList = u ++ x :: v ∧
      m'.root.toList = u ++ v := by
  obtain ⟨n, hn⟩ := h.balanced
  obtain ⟨t, k, u, v, hrem, hbal, hold, hnew⟩ := rbRemove_spec (Hole.root n) (hn.fits false) h.sorted hx
  have hnew' : t.toList = u ++ v := by simpa [before, after] using hnew
  have hsize : m.size = (u ++ v).length + 1 := by
    rw [h.size, hold]
    simp
    omega
  refine ⟨{ root := t, size := m.size - 1 }, u, v, ?_, ⟨⟨k, hbal⟩, ?_, ?_⟩, hold, hnew'⟩
  · have hne : m.size ≠ 0 := by omega
    simp [mapErase, hne, hrem]
  · have hs := h.sorted
    rw [hold] at hs
    rw [hnew']
    exact hs.of_insert
  · rw [hnew', hsize]
    rfl

end Wf

/-! ## What the invariant says -/

def IsBst (cmp : K → K → Ordering) : MapTree K V → Prop
  | .nil => True
  | .node _ l x r =>
    (∀ y ∈ l.toList, cmp y.key x.key = .lt) ∧ (∀ y ∈ r.toList, cmp x.key y.key = .lt) ∧ IsBst cmp l ∧
      IsBst cmp r

def NoRedRed : MapTree K V → Prop
  | .nil => True
  | .node c l _ r => (c = .red → l.isRed = false ∧ r.isRed = false) ∧ NoRedRed l ∧ NoRedRed r

/-- The number of black nodes on each path from the root to a null link. -/
def blackCounts : MapTree K V → List Nat
  | .nil => [0]
  | .node c l _ r => (blackCounts l ++ blackCounts r).map (· + if c = .black then 1 else 0)

/-- The properties of a red-black tree, and the node count. -/
structure RbMap.RedBlack (cmp : K → K → Ordering) (m : RbMap K V) : Prop where
  bst : IsBst cmp m.root
  rootBlack : m.root.isRed = false
  noRedRed : NoRedRed m.root
  blackHeight : ∃ n, ∀ k ∈ blackCounts m.root, k = n
  size : m.size = m.root.toList.length

theorem Sorted.isBst {t : MapTree K V} (h : Sorted cmp t.toList) : IsBst cmp t := by
  induction t with
  | nil => trivial
  | node c l x r ihl ihr =>
    obtain ⟨hl, hr, hxr, hlx, -⟩ := sorted_node.mp h
    exact ⟨hlx, hxr, ihl hl, ihr hr⟩

theorem Balanced.noRedRed {t : MapTree K V} {c : MapColor} {n : Nat} (h : Balanced t c n) : NoRedRed t := by
  induction h with
  | nil => trivial
  | black hl hr ihl ihr => exact ⟨fun hc => (nomatch hc), ihl, ihr⟩
  | red hl hr ihl ihr => exact ⟨fun _ => ⟨hl.isRed, hr.isRed⟩, ihl, ihr⟩

theorem Balanced.blackCounts_eq {t : MapTree K V} {c : MapColor} {n : Nat} (h : Balanced t c n) :
    ∀ k ∈ blackCounts t, k = n := by
  induction h with
  | nil => simp [blackCounts]
  | black hl hr ihl ihr =>
    intro k hk
    simp only [blackCounts, List.mem_map, List.mem_append, if_true] at hk
    obtain ⟨j, hj | hj, rfl⟩ := hk
    · rw [ihl j hj]
    · rw [ihr j hj]
  | red hl hr ihl ihr =>
    intro k hk
    simp only [blackCounts, List.mem_map, List.mem_append, reduceCtorEq, if_false, Nat.add_zero,
      exists_eq_right] at hk
    exact hk.elim (ihl k) (ihr k)

theorem RbMap.Wf.redBlack {m : RbMap K V} (h : m.Wf cmp) : m.RedBlack cmp := by
  obtain ⟨n, hn⟩ := h.balanced
  exact ⟨h.sorted.isBst, hn.isRed, hn.noRedRed, ⟨n, hn.blackCounts_eq⟩, h.size⟩

/-! ## Runs -/

inductive MapEvent (K V : Type)
  | inserted (key : K) (val : V)
  | erased (key : K)
  | cleared

/-- The maps that operations lead to, with their history, the last event first. -/
inductive MapRun (cmp : K → K → Ordering) : List (MapEvent K V) → RbMap K V → Prop
  | new : MapRun cmp [] {}
  | inserted {hist : List (MapEvent K V)} {m m' : RbMap K V} {key : K} {val : V} {mem : Option MapAddr}
      (h : MapRun cmp hist m) (hstep : mapInsert cmp m key val mem = some (true, m')) :
      MapRun cmp (.inserted key val :: hist) m'
  | rejected {hist : List (MapEvent K V)} {m m' : RbMap K V} {key : K} {val : V} {mem : Option MapAddr}
      (h : MapRun cmp hist m) (hstep : mapInsert cmp m key val mem = some (false, m')) :
      MapRun cmp hist m'
  | erased {hist : List (MapEvent K V)} {m m' : RbMap K V} {key : K} {x : MapNode K V}
      (h : MapRun cmp hist m) (hfind : mapFind cmp m key = some x)
      (hstep : mapErase cmp m (some x) = some m') : MapRun cmp (.erased x.key :: hist) m'
  | cleared {hist : List (MapEvent K V)} {m : RbMap K V} (h : MapRun cmp hist m) :
      MapRun cmp (.cleared :: hist) (mapClear m)

/-- The value of the last insertion of `key`, if the key has been neither erased nor cleared since. -/
def lastInserted (cmp : K → K → Ordering) (key : K) : List (MapEvent K V) → Option V
  | [] => none
  | .inserted k v :: hist => if cmp key k = .eq then some v else lastInserted cmp key hist
  | .erased k :: hist => if cmp key k = .eq then none else lastInserted cmp key hist
  | .cleared :: _ => none

section Run

variable [TransCmp cmp] {m m' : RbMap K V} {hist : List (MapEvent K V)}

theorem MapRun.wf (h : MapRun cmp hist m) : m.Wf cmp := by
  induction h with
  | new => exact RbMap.wf_new
  | @inserted hist m m' key val mem h hstep ih =>
    obtain ⟨res, hres, hins⟩ := ih.insert key val mem
    rw [hstep] at hres
    obtain rfl := Option.some_inj.mp hres
    cases hins with
    | added addr hfind hwf hold hnew => exact hwf
  | @rejected hist m m' key val mem h hstep ih =>
    obtain ⟨res, hres, hins⟩ := ih.insert key val mem
    rw [hstep] at hres
    obtain rfl := Option.some_inj.mp hres
    cases hins <;> exact ih
  | erased h hfind hstep ih =>
    obtain ⟨m', u, v, herase, hwf, -, -⟩ := ih.erase ((findNode_iff ih.sorted _ _).mp hfind).1
    rw [hstep] at herase
    obtain rfl := Option.some_inj.mp herase
    exact hwf
  | cleared h ih => exact RbMap.wf_new

/-- **Every map that operations lead to is a red-black tree, and no assertion fails on it.** -/
theorem mapRun_redBlack (h : MapRun cmp hist m) :
    m.RedBlack cmp ∧ (∀ key val mem, (mapInsert cmp m key val mem).isSome = true) ∧
      ∀ key x, mapFind cmp m key = some x → (mapErase cmp m (some x)).isSome = true := by
  refine ⟨h.wf.redBlack, fun key val mem => ?_, fun key x hfind => ?_⟩
  · obtain ⟨res, hres, -⟩ := h.wf.insert key val mem
    rw [hres]
    rfl
  · obtain ⟨m', u, v, herase, -, -, -⟩ := h.wf.erase ((findNode_iff h.wf.sorted key x).mp hfind).1
    rw [herase]
    rfl

theorem RbMap.Wf.find_erased (h : m.Wf cmp) {x : MapNode K V} (hx : x ∈ m.root.toList)
    (hstep : mapErase cmp m (some x) = some m') (key : K) :
    mapFind cmp m' key = if cmp key x.key = .eq then none else mapFind cmp m key := by
  obtain ⟨m1, u, v, herase, hwf, hold, hnew⟩ := h.erase hx
  rw [hstep] at herase
  obtain rfl := Option.some_inj.mp herase
  split_ifs with heq
  · exact findNode_drop h.sorted hold hnew heq
  · have hadd := findNode_add h.sorted hnew hold key
    rw [if_neg heq] at hadd
    exact hadd.symm

/-- A search answers with the last insertion of the key. -/
theorem MapRun.find_eq (h : MapRun cmp hist m) (key : K) :
    (mapFind cmp m key).map MapNode.data = lastInserted cmp key hist := by
  induction h with
  | new => rfl
  | @inserted hist m m' k val mem h hstep ih =>
    obtain ⟨res, hres, hins⟩ := h.wf.insert k val mem
    rw [hstep] at hres
    obtain rfl := Option.some_inj.mp hres
    cases hins with
    | added addr hfind hwf hold hnew =>
      rw [lastInserted, ← ih, mapFind, findNode_add hwf.sorted hold hnew key]
      split_ifs <;> rfl
  | @rejected hist m m' k val mem h hstep ih =>
    obtain ⟨res, hres, hins⟩ := h.wf.insert k val mem
    rw [hstep] at hres
    obtain rfl := Option.some_inj.mp hres
    cases hins <;> exact ih
  | erased h hfind hstep ih =>
    rw [h.wf.find_erased ((findNode_iff h.wf.sorted _ _).mp hfind).1 hstep key, lastInserted, ← ih]
    split_ifs <;> rfl
  | cleared h ih => rfl

/-- **The map is a finite map.** A search succeeds exactly for the keys that have been inserted and neither
erased nor cleared since, with the value of that insertion; a key that is present is not inserted again; one
that is absent is inserted if there is memory; an erased node takes no other key with it. -/
theorem mapRun_finiteMap (h : MapRun cmp hist m) :
    (∀ key, (mapFind cmp m key).map MapNode.data = lastInserted cmp key hist) ∧
      (∀ key val mem, (mapFind cmp m key).isSome = true → mapInsert cmp m key val mem = some (false, m)) ∧
      (∀ key val addr, mapFind cmp m key = none → m.size + 1 < 2 ^ 64 →
        ∃ m', mapInsert cmp m key val (some addr) = some (true, m')) ∧
      ∀ k x m', mapFind cmp m k = some x → mapErase cmp m (some x) = some m' →
        mapFind cmp m' k = none ∧ ∀ key, cmp key x.key ≠ .eq → mapFind cmp m' key = mapFind cmp m key := by
  refine ⟨h.find_eq, fun key val mem hfind => ?_, fun key val addr hfind hsize => ?_,
    fun k x m' hfind hstep => ?_⟩
  · obtain ⟨res, hres, hins⟩ := h.wf.insert key val mem
    rw [hres]
    cases hins with
    | present mem hx => rfl
    | refused mem hnone hwhy => rfl
    | added addr hnone hwf hold hnew =>
      rw [hnone] at hfind
      cases hfind
  · obtain ⟨res, hres, hins⟩ := h.wf.insert key val (some addr)
    rw [hres]
    cases hins with
    | present mem hx =>
      rw [hfind] at hx
      cases hx
    | refused mem hnone hwhy =>
      rcases hwhy with hmem | hdeep
      · cases hmem
      · exact absurd hdeep (Nat.not_le.mpr hsize)
    | added addr hnone hwf hold hnew => exact ⟨_, rfl⟩
  · obtain ⟨hmem, heq⟩ := (findNode_iff h.wf.sorted k x).mp hfind
    refine ⟨?_, fun key hne => ?_⟩
    · rw [h.wf.find_erased hmem hstep, if_pos heq]
    · rw [h.wf.find_erased hmem hstep, if_neg hne]

end Run

/-! ## A run -/

/-- 1, 2 and 3 are inserted, and 2 is erased. -/
def threeInserted : List (MapEvent Nat Nat) :=
  [.erased 2, .inserted 3 9, .inserted 2 4, .inserted 1 1]

/-- The successor 3 of the erased root stands in its place. -/
def threeMap : RbMap Nat Nat where
  root := .node .black (.node .red .nil ⟨⟨2, rfl⟩, 1, 1⟩ .nil) ⟨⟨6, rfl⟩, 3, 9⟩ .nil
  size := 2

theorem threeMap_run : MapRun compare threeInserted threeMap := by
  have h1 := MapRun.inserted .new
    (show mapInsert compare ({} : RbMap Nat Nat) 1 1 (some ⟨2, rfl⟩) = some (true, _) from rfl)
  have h2 := h1.inserted (show mapInsert compare _ 2 4 (some ⟨4, rfl⟩) = some (true, _) from rfl)
  have h3 := h2.inserted (show mapInsert compare _ 3 9 (some ⟨6, rfl⟩) = some (true, _) from rfl)
  exact h3.erased (show mapFind compare _ 2 = some _ from rfl) rfl

theorem threeMap_redBlack : threeMap.RedBlack compare ∧ threeMap.size = 2 :=
  ⟨(mapRun_redBlack threeMap_run).1, rfl⟩

theorem threeMap_find :
    (mapFind compare threeMap 3).map MapNode.data = some 9 ∧
      (mapFind compare threeMap 2).map MapNode.data = none :=
  ⟨(mapRun_finiteMap threeMap_run).1 3, (mapRun_finiteMap threeMap_run).1 2⟩

end Rv32emu
