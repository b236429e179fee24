import Rv32emu.MapRun
import Mathlib.Data.List.GetD
import Mathlib.Logic.Function.Iterate

/-!
# Iteration over the map

An iterator is the node it points to, with what hangs below it.

* `mapFirst`, `mapLast`, `mapNext`, `mapPrev`, `mapAtEnd` : as in the source;
* `walk` : the subtrees of a tree in the order of their roots;
* `mapNext_eq` : the node after one of them; `mapPrev_eq` : `map_prev` is `map_next` in the mirror;
* `mapRun_iterates` : an iteration visits every key of the map once, in order, and then ends.
-/

namespace Rv32emu

open MapTree Std

variable {K V : Type} {cmp : K → K → Ordering}

/-! ## The functions -/

namespace MapTree

/-- `while (node->left) node = node->left`. -/
def leftmost : MapTree K V → MapTree K V
  | nil => nil
  | node c nil x r => node c nil x r
  | node _ (node c l y r') _ _ => leftmost (node c l y r')

/-- `while ((right = rb_node_get_right(node))) node = right`. -/
def rightmost : MapTree K V → MapTree K V
  | nil => nil
  | node c l x nil => node c l x nil
  | node _ _ _ (node c l y r) => rightmost (node c l y r)

/-- What the node holds; `none` for `NULL`. -/
def content : MapTree K V → Option (MapNode K V)
  | nil => none
  | node _ _ x _ => some x

end MapTree

def mapFirst (m : RbMap K V) : MapTree K V := m.root.leftmost

def mapLast (m : RbMap K V) : MapTree K V := m.root.rightmost

def mapAtEnd (it : MapTree K V) : Bool := it.content.isNone

section Compare

variable (cmp)

/-- The loop of `map_next` from the root. -/
def successorLoop (key : K) : MapTree K V → MapTree K V → MapTree K V
  | .nil, succ => succ
  | .node c l y r, succ =>
    match cmp key y.key with
    | .lt => successorLoop key l (.node c l y r)
    | .gt => successorLoop key r succ
    | .eq => succ

/-- The loop of `map_prev` from the root. -/
def predecessorLoop (key : K) : MapTree K V → MapTree K V → MapTree K V
  | .nil, pred => pred
  | .node c l y r, pred =>
    match cmp key y.key with
    | .gt => predecessorLoop key r (.node c l y r)
    | .lt => predecessorLoop key l pred
    | .eq => pred

def mapNext (m : RbMap K V) : MapTree K V → MapTree K V
  | .nil => .nil
  | .node _ _ x .nil => successorLoop cmp x.key m.root .nil
  | .node _ _ _ (.node c l y r) => leftmost (.node c l y r)

def mapPrev (m : RbMap K V) : MapTree K V → MapTree K V
  | .nil => .nil
  | .node _ .nil x _ => predecessorLoop cmp x.key m.root .nil
  | .node _ (.node c l y r) _ _ => rightmost (.node c l y r)

end Compare

/-! ## The order of the subtrees -/

namespace MapTree

/-- The subtrees in the order of their roots. -/
def walk : MapTree K V → List (MapTree K V)
  | nil => []
  | node c l x r => l.walk ++ node c l x r :: r.walk

theorem walk_content (t : MapTree K V) : t.walk.map content = t.toList.map some := by
  induction t with
  | nil => rfl
  | node c l x r ihl ihr =>
    rw [walk, toList, List.map_append, List.map_append, List.map_cons, List.map_cons, ihl, ihr]
    rfl

theorem root_mem {t l r : MapTree K V} {c : MapColor} {x : MapNode K V} (h : node c l x r ∈ t.walk) : x ∈ t.toList := by
  have hmem : some x ∈ t.walk.map content := List.mem_map.mpr ⟨_, h, rfl⟩
  rw [walk_content, List.mem_map] at hmem
  obtain ⟨y, hy, hyx⟩ := hmem
  exact Option.some.inj hyx ▸ hy

theorem walk_head (c : MapColor) (l : MapTree K V) (x : MapNode K V) (r : MapTree K V) :
    ∃ w, (node c l x r).walk = (node c l x r).leftmost :: w := by
  induction l generalizing c x r with
  | nil => exact ⟨r.walk, rfl⟩
  | node c' l' y r' ihl ihr =>
    obtain ⟨w, hw⟩ := ihl c' y r'
    refine ⟨w ++ node c (node c' l' y r') x r :: r.walk, ?_⟩
    rw [walk, hw, leftmost, List.cons_append]

theorem headD_walk (t : MapTree K V) : t.walk.headD nil = t.leftmost := by
  cases t with
  | nil => rfl
  | node c l x r =>
    obtain ⟨w, hw⟩ := walk_head c l x r
    rw [hw, List.headD_cons]

/-- Where a subtree stands in a tree: on the left, at the root or on the right. -/
theorem walk_split {c : MapColor} {l r s : MapTree K V} {x : MapNode K V} {u v : List (MapTree K V)}
    (h : (node c l x r).walk = u ++ s :: v) :
    (∃ w, l.walk = u ++ s :: w ∧ v = w ++ node c l x r :: r.walk) ∨ (u = l.walk ∧ s = node c l x r ∧ v = r.walk) ∨
      ∃ w, r.walk = w ++ s :: v ∧ u = l.walk ++ node c l x r :: w := by
  rcases List.append_eq_append_iff.mp h with ⟨w, hu, hw⟩ | ⟨w, hl, hw⟩
  · cases w with
    | nil =>
      obtain ⟨rfl, rfl⟩ := List.cons.inj hw
      exact .inr (.inl ⟨by rw [hu, List.append_nil], rfl, rfl⟩)
    | cons t w =>
      obtain ⟨rfl, htail⟩ := List.cons.inj hw
      exact .inr (.inr ⟨w, htail, hu⟩)
  · cases w with
    | nil =>
      obtain ⟨rfl, rfl⟩ := List.cons.inj hw
      exact .inr (.inl ⟨by rw [hl, List.append_nil], rfl, rfl⟩)
    | cons t w =>
      obtain ⟨rfl, rfl⟩ := List.cons.inj hw
      exact .inl ⟨w, hl, rfl⟩

/-- Behind a subtree comes what hangs on its right. -/
theorem walk_right {t l r : MapTree K V} {c : MapColor} {x : MapNode K V} {u v : List (MapTree K V)}
    (h : t.walk = u ++ node c l x r :: v) : ∃ w, v = r.walk ++ w := by
  induction t generalizing u v with
  | nil => exact absurd h.symm (List.append_ne_nil_of_right_ne_nil u (List.cons_ne_nil _ _))
  | node c' l' y r' ihl ihr =>
    rcases walk_split h with ⟨w, hl, rfl⟩ | ⟨-, hnode, rfl⟩ | ⟨w, hr, -⟩
    · obtain ⟨w', rfl⟩ := ihl hl
      exact ⟨w' ++ node c' l' y r' :: r'.walk, List.append_assoc ..⟩
    · cases hnode
      exact ⟨[], (List.append_nil _).symm⟩
    · exact ihr hr

end MapTree

/-! ## One step -/

section Step

variable [OrientedCmp cmp]

/-- The search for the successor ends at the next subtree, if nothing hangs on the right. -/
theorem successorLoop_eq {t l succ : MapTree K V} {c : MapColor} {x : MapNode K V} {u v : List (MapTree K V)}
    (hsorted : Sorted cmp t.toList) (h : t.walk = u ++ .node c l x .nil :: v) :
    successorLoop cmp x.key t succ = v.headD succ := by
  induction t generalizing u v succ with
  | nil => exact absurd h.symm (List.append_ne_nil_of_right_ne_nil u (List.cons_ne_nil _ _))
  | node c' l' y r' ihl ihr =>
    obtain ⟨hl', hr', hright, hleft, -⟩ := sorted_node.mp hsorted
    rw [successorLoop]
    rcases walk_split h with ⟨w, hl, rfl⟩ | ⟨-, hnode, rfl⟩ | ⟨w, hr, -⟩
    · have hlt : cmp x.key y.key = .lt := hleft x (root_mem (hl ▸ List.mem_append_right u List.mem_cons_self))
      simp only [hlt]
      rw [ihl hl' hl]
      cases w <;> rfl
    · cases hnode
      have heq : cmp x.key x.key = .eq := ReflCmp.compare_self
      simp only [heq]
      rfl
    · have hgt : cmp x.key y.key = .gt :=
        OrientedCmp.gt_of_lt (hright x (root_mem (hr ▸ List.mem_append_right w List.mem_cons_self)))
      simp only [hgt]
      exact ihr hr' hr

/-- **`map_next`** goes to the next subtree. -/
theorem mapNext_eq {m : RbMap K V} (hsorted : Sorted cmp m.root.toList) {u v : List (MapTree K V)} {it : MapTree K V}
    (h : m.root.walk = u ++ it :: v) (hit : it ≠ .nil) : mapNext cmp m it = v.headD .nil := by
  match it with
  | .nil => exact absurd rfl hit
  | .node c l x .nil => exact successorLoop_eq hsorted h
  | .node c l x (.node c' l' y r') =>
    obtain ⟨w, rfl⟩ := walk_right h
    obtain ⟨w', hw'⟩ := walk_head c' l' y r'
    rw [hw', List.cons_append, List.headD_cons]
    rfl

end Step

/-! ## The mirror -/

namespace MapTree

def mirror : MapTree K V → MapTree K V
  | nil => nil
  | node c l x r => node c r.mirror x l.mirror

theorem content_mirror (t : MapTree K V) : t.mirror.content = t.content := by
  cases t <;> rfl

theorem toList_mirror (t : MapTree K V) : t.mirror.toList = t.toList.reverse := by
  induction t with
  | nil => rfl
  | node c l x r ihl ihr =>
    rw [mirror, toList, toList, ihl, ihr, List.reverse_append, List.reverse_cons, List.append_assoc,
      List.singleton_append]

theorem mirror_rightmost (t : MapTree K V) : t.rightmost.mirror = t.mirror.leftmost := by
  induction t with
  | nil => rfl
  | node c l x r ihl ihr =>
    cases r with
    | nil => rfl
    | node c' l' y r' => exact ihr

end MapTree

def RbMap.mirror (m : RbMap K V) : RbMap K V := { m with root := m.root.mirror }

section Mirror

variable [OrientedCmp cmp]

theorem mirror_predecessorLoop (key : K) (t pred : MapTree K V) :
    (predecessorLoop cmp key t pred).mirror = successorLoop (fun a b => cmp b a) key t.mirror pred.mirror := by
  induction t generalizing pred with
  | nil => rfl
  | node c l y r ihl ihr =>
    rw [predecessorLoop, mirror, successorLoop]
    have hswap : cmp y.key key = (cmp key y.key).swap := OrientedCmp.eq_swap
    cases hcmp : cmp key y.key with
    | lt =>
      simp only [hswap, hcmp, Ordering.swap]
      exact ihl pred
    | eq => simp only [hswap, hcmp, Ordering.swap]
    | gt =>
      simp only [hswap, hcmp, Ordering.swap]
      exact ihr (.node c l y r)

/-- **`map_prev` is `map_next` in the mirror.** -/
theorem mapPrev_eq (m : RbMap K V) (it : MapTree K V) :
    (mapPrev cmp m it).mirror = mapNext (fun a b => cmp b a) m.mirror it.mirror := by
  match it with
  | .nil => rfl
  | .node c .nil x r => exact mirror_predecessorLoop x.key m.root .nil
  | .node c (.node c' l' y r') x r => exact mirror_rightmost (.node c' l' y r')

end Mirror

/-! ## Iterations -/

section Iterate

variable [OrientedCmp cmp] {m : RbMap K V}

theorem MapTree.ne_nil_of_mem {t s : MapTree K V} (h : s ∈ t.walk) : s ≠ .nil := by
  rintro rfl
  have hmem : none ∈ t.walk.map content := List.mem_map.mpr ⟨_, h, rfl⟩
  rw [walk_content, List.mem_map] at hmem
  obtain ⟨x, -, hx⟩ := hmem
  cases hx

/-- The iterator after `i` steps stands at the subtree `i`, and at `NULL` once they are used up. -/
theorem iterate_mapNext (hsorted : Sorted cmp m.root.toList) (i : Nat) :
    (mapNext cmp m)^[i] (mapFirst m) = m.root.walk.getD i .nil := by
  induction i with
  | zero => rw [Function.iterate_zero_apply, mapFirst, ← headD_walk, List.headD_eq_head?_getD, List.head?_eq_getElem?,
      List.getD_eq_getElem?_getD]
  | succ i ih =>
    rw [Function.iterate_succ_apply', ih]
    by_cases hi : i < m.root.walk.length
    · have hsplit : m.root.walk = m.root.walk.take i ++ m.root.walk[i] :: m.root.walk.drop (i + 1) := by
        rw [← List.drop_eq_getElem_cons hi, List.take_append_drop]
      rw [List.getD_eq_getElem _ _ hi, mapNext_eq hsorted hsplit (ne_nil_of_mem (List.getElem_mem hi)),
        List.headD_eq_head?_getD, List.head?_drop, List.getD_eq_getElem?_getD]
    · rw [List.getD_eq_default _ _ (Nat.not_lt.mp hi), List.getD_eq_default _ _ (by omega)]
      rfl

theorem walk_getD_content (t : MapTree K V) (i : Nat) : (t.walk.getD i .nil).content = t.toList[i]? := by
  have hmap := congrArg (·[i]?) (walk_content t)
  simp only [List.getElem?_map] at hmap
  rw [List.getD_eq_getElem?_getD]
  cases hw : t.walk[i]? with
  | none =>
    rw [hw] at hmap
    cases hx : t.toList[i]? with
    | none => rfl
    | some x =>
      rw [hx] at hmap
      cases hmap
  | some s =>
    rw [hw] at hmap
    cases hx : t.toList[i]? with
    | none =>
      rw [hx] at hmap
      cases hmap
    | some x =>
      rw [hx] at hmap
      exact Option.some.inj hmap

theorem iterate_next_content (hsorted : Sorted cmp m.root.toList) (i : Nat) :
    ((mapNext cmp m)^[i] (mapFirst m)).content = m.root.toList[i]? := by
  rw [iterate_mapNext hsorted, walk_getD_content]

theorem iterate_prev_content (hsorted : Sorted cmp m.root.toList) (i : Nat) :
    ((mapPrev cmp m)^[i] (mapLast m)).content = m.root.toList.reverse[i]? := by
  have hmirror : ((mapPrev cmp m)^[i] (mapLast m)).mirror = (mapNext (fun a b => cmp b a) m.mirror)^[i]
      (mapFirst m.mirror) := by
    have hsemi : Function.Semiconj mirror (mapPrev cmp m) (mapNext (fun a b => cmp b a) m.mirror) := mapPrev_eq m
    rw [hsemi.iterate_right i (mapLast m)]
    exact congrArg _ (mirror_rightmost m.root)
  have hrev : Sorted (fun a b => cmp b a) m.mirror.root.toList := by
    change Sorted _ m.root.mirror.toList
    rw [toList_mirror]
    exact List.pairwise_reverse.mpr hsorted
  rw [← content_mirror, hmirror, iterate_next_content hrev]
  exact congrArg (·[i]?) (toList_mirror m.root)

theorem mapAtEnd_iff {l : List (MapNode K V)} {it : MapTree K V} {i : Nat} (h : it.content = l[i]?) :
    mapAtEnd it = true ↔ l.length ≤ i := by
  unfold mapAtEnd
  rw [h, Option.isNone_iff_eq_none, List.getElem?_eq_none_iff]

end Iterate

section Run

variable [TransCmp cmp] {m : RbMap K V} {hist : List (MapEvent K V)}

/-- **An iteration** visits the keys that are in the map, each once and in ascending order, and then is at the end; the
one from the last key visits them in the reverse order. -/
theorem mapRun_iterates (h : MapRun cmp hist m) :
    ∃ l : List (MapNode K V), Sorted cmp l ∧
      (∀ key x, mapFind cmp m key = some x ↔ x ∈ l ∧ cmp key x.key = .eq) ∧
      (∀ key, (∃ x ∈ l, cmp key x.key = .eq) ↔ (lastInserted cmp key hist).isSome = true) ∧
      (∀ i, ((mapNext cmp m)^[i] (mapFirst m)).content = l[i]? ∧
        (mapAtEnd ((mapNext cmp m)^[i] (mapFirst m)) = true ↔ l.length ≤ i)) ∧
      ∀ i, ((mapPrev cmp m)^[i] (mapLast m)).content = l.reverse[i]? ∧
        (mapAtEnd ((mapPrev cmp m)^[i] (mapLast m)) = true ↔ l.length ≤ i) := by
  have hsorted := h.wf.sorted
  refine ⟨m.root.toList, hsorted, findNode_iff hsorted, fun key => ?_, fun i => ?_, fun i => ?_⟩
  · rw [← h.find_eq key, Option.isSome_map, Option.isSome_iff_exists]
    exact exists_congr fun x => (findNode_iff hsorted key x).symm
  · have hnext := iterate_next_content hsorted i
    exact ⟨hnext, mapAtEnd_iff hnext⟩
  · have hprev := iterate_prev_content hsorted i
    refine ⟨hprev, ?_⟩
    rw [mapAtEnd_iff hprev, List.length_reverse]

end Run

/-- The iteration over the keys 1 and 3. -/
theorem threeMap_iterates :
    ∃ l : List (MapNode Nat Nat), Sorted compare l ∧ (∃ x ∈ l, compare 3 x.key = .eq) ∧
      ∀ i, ((mapNext compare threeMap)^[i] (mapFirst threeMap)).content = l[i]? := by
  obtain ⟨l, hsorted, -, hkeys, hnext, -⟩ := mapRun_iterates threeMap_run
  exact ⟨l, hsorted, (hkeys 3).mpr rfl, fun i => (hnext i).1⟩

end Rv32emu
