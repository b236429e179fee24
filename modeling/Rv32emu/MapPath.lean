import Rv32emu.MapRun
import Mathlib.Data.Nat.Log

/-!
# The path arrays of the map

`map_insert` and `rb_remove` again, with every access to `path` checked against `RB_MAX_DEPTH`. The entry at which a
loop stands has as many entries above it as its index says.

* `pathAt` : an access; `PathArray.mapInsert`, `PathArray.mapErase` : the functions with their accesses;
* `leafPaths` : the ways from the root to a null link;
* `MapRun.balanced` : the trees of all runs are balanced, whatever the comparator does;
* `mapRun_pathBounded` : the length of the ways, and that no access leaves the arrays.
-/

namespace Rv32emu

open MapTree

variable {K V : Type}

/-! ## Accesses -/

/-- A failed assertion or a null pointer that is followed, or an entry outside of the array. -/
inductive PathFault
  | assertion
  | index (i : Int)
  deriving DecidableEq, Repr

def pathAt (i : Int) : Except PathFault Unit := if 0 ≤ i ∧ i < rbMaxDepth then .ok () else .error (.index i)

/-- What the functions do apart from `path`. -/
def need {α : Type} : Option α → Except PathFault α
  | some a => .ok a
  | none => .error .assertion

namespace PathArray

def pathAbove (path : List (Frame K V)) : Except PathFault Unit :=
  if path.isEmpty then .ok () else pathAt (path.length - 1)

/-- The subtree below `path` has a new root, and the entry above is told. -/
def relink (path : List (Frame K V)) (t : MapTree K V) : Except PathFault (MapTree K V) := do
  pathAbove path
  return plug path t

/-- `relink` behind `assert(pathp > path)`. -/
def relinkBelow (path : List (Frame K V)) (t : MapTree K V) : Except PathFault (MapTree K V) :=
  if path.isEmpty then .error .assertion
  else do
    pathAt (path.length - 1)
    return plug path t

section Compare

variable (cmp : K → K → Ordering)

/-! ## Insertion -/

/-- `rb_insert_unique`. The loop reads `pathp->node` before the depth. -/
def insertUnique (key : K) : MapTree K V → List (Frame K V) → Except PathFault (InsertPoint K V)
  | .nil, path => do
    pathAt path.length
    return if rbMaxDepth - 1 ≤ path.length then .tooDeep else .free path
  | .node c l x r, path => do
    pathAt path.length
    if rbMaxDepth - 1 ≤ path.length then return .tooDeep
    else match cmp key x.key with
      | .lt => do
        pathAt (path.length + 1)
        insertUnique key l (⟨true, c, x, r⟩ :: path)
      | .gt => do
        pathAt (path.length + 1)
        insertUnique key r (⟨false, c, x, l⟩ :: path)
      | .eq => return .found x

/-- The loop of `map_insert`, and `path->node` behind it. -/
def insertFix : MapTree K V → List (Frame K V) → Except PathFault (MapTree K V)
  | t, [] => do
    pathAt 0
    return t
  | t, f :: path => do
    let cnode := f.node t
    pathAt path.length
    pathAt (path.length + 1)
    if (← need t.color) = .black then
      pathAt 0
      return plug path cnode
    else if f.less then
      let leftleft ← need t.left
      if leftleft.isRed then
        let left ← need (t.setLeft (← need (leftleft.paint .black)))
        insertFix (← need (Frame.node f left).rotateRight) path
      else insertFix cnode path
    else
      if f.sib.isRed then
        let left ← need (f.sib.paint .black)
        let right ← need (t.paint .black)
        insertFix (.node .red left f.x right) path
      else
        let tnode ← need (MapTree.node .red f.sib f.x t).rotateLeft
        insertFix (← need (tnode.paint f.color)) path

def mapInsert (m : RbMap K V) (key : K) (val : V) (mem : Option MapAddr) :
    Except PathFault (Bool × RbMap K V) := do
  match ← insertUnique cmp key m.root [], mem with
  | .free path, some addr =>
    pathAt path.length
    let root ← insertFix (.node .red .nil ⟨addr, key, val⟩ .nil) path
    return (true, { root := ← need (root.paint .black), size := m.size + 1 })
  | _, _ => return (false, m)

/-! ## Removal -/

/-- The loop of `rb_remove` above a subtree `t` that has lost a black node, and `path->node` behind it. -/
def removeFix : MapTree K V → List (Frame K V) → Except PathFault (MapTree K V)
  | t, [] => do
    pathAt 0
    if t.color = some .black then return t else .error .assertion
  | t, f :: path => do
    pathAt path.length
    pathAt (path.length + 1)
    if f.less then
      let right := f.sib
      let rightleft ← need right.left
      if f.color = .red then
        if rightleft.isRed then
          let right ← need right.rotateRight
          relinkBelow path (← need (MapTree.node .black t f.x right).rotateLeft)
        else relinkBelow path (← need (MapTree.node .red t f.x right).rotateLeft)
      else
        if rightleft.isRed then
          let right ← need (right.setLeft (← need (rightleft.paint .black)))
          let right ← need right.rotateRight
          relink path (← need (MapTree.node f.color t f.x right).rotateLeft)
        else removeFix (← need (MapTree.node .red t f.x right).rotateLeft) path
    else
      let left := f.sib
      if (← need left.color) = .red then
        let leftright ← need left.right
        let leftrightleft ← need leftright.left
        if leftrightleft.isRed then
          let leftright ← need (leftright.setLeft (← need (leftrightleft.paint .black)))
          let left ← need (left.setRight leftright)
          let unode ← need (MapTree.node f.color left f.x t).rotateRight
          let tnode ← need (← need unode.right).rotateRight
          let unode ← need (unode.setRight tnode)
          relink path (← need unode.rotateLeft)
        else
          let left ← need (left.setRight (← need (leftright.paint .red)))
          let tnode ← need (MapTree.node f.color left f.x t).rotateRight
          relink path (← need (tnode.paint .black))
      else
        let leftleft ← need left.left
        if f.color = .red then
          if leftleft.isRed then
            let left ← need (left.setLeft (← need (leftleft.paint .black)))
            let left ← need (left.paint .red)
            relinkBelow path (← need (MapTree.node .black left f.x t).rotateRight)
          else return plug path (.node .black (← need (left.paint .red)) f.x t)
        else
          if leftleft.isRed then
            let left ← need (left.setLeft (← need (leftleft.paint .black)))
            relink path (← need (MapTree.node f.color left f.x t).rotateRight)
          else removeFix (.node f.color (← need (left.paint .red)) f.x t) path

/-- A node without children is taken out below `path`: `pathp[-1]` is read if it is red, and `pathp->node` cleared if
it is black. -/
def pruneLeaf (c : MapColor) (path : List (Frame K V)) : Except PathFault (MapTree K V) := do
  pathAt path.length
  if c = .red then
    pathAt (path.length - 1)
    match path with
    | [] => .error .assertion
    | f :: _ => if f.less then return plug path .nil else .error .assertion
  else removeFix .nil path

/-- The way down to the successor below `base` entries. The loop ends at the null link behind it. -/
def successor (base : Nat) (c : MapColor) (x : MapNode K V) (r : MapTree K V) : MapTree K V → List (Frame K V) →
    Except PathFault (List (Frame K V) × MapColor × MapNode K V)
  | .nil, spine => do
    pathAt (base + spine.length)
    pathAt (base + spine.length + 1)
    return (spine, c, x)
  | .node c' l' x' r', spine => do
    pathAt (base + spine.length)
    pathAt (base + spine.length + 1)
    successor base c' x' r' l' (⟨true, c, x, r⟩ :: spine)

/-- `rb_remove` once a node with the key has been found below `path`, which is `nodep`. -/
def removeAt (it : MapNode K V) (c : MapColor) (l : MapTree K V) (x : MapNode K V) (r : MapTree K V)
    (path : List (Frame K V)) : Except PathFault (MapTree K V) := do
  match r with
  | .node c' l' x' r' =>
    let (spine, color, y) ← successor (path.length + 1) c' x' r' l' []
    pathAt path.length
    if x.addr = it.addr then
      -- `pathp`, and then `nodep[-1]`
      pathAt (path.length + 1 + spine.length)
      pathAbove path
      pruneLeaf color (spine ++ ⟨false, c, y, l⟩ :: path)
    else .error .assertion
  | .nil =>
    pathAt (path.length + 1)
    pathAt path.length
    if x.addr = it.addr then
      if l.color.isSome then
        if c = .black ∧ l.isRed then relink path (← need (l.paint .black)) else .error .assertion
      else if path.isEmpty then return .nil
      else pruneLeaf c path
    else .error .assertion

/-- `rb_remove`. Behind a null link `nodep` is null. -/
def rbRemove (it : MapNode K V) : MapTree K V → List (Frame K V) → Except PathFault (MapTree K V)
  | .nil, path => do
    pathAt path.length
    .error .assertion
  | .node c l x r, path => do
    pathAt path.length
    pathAt (path.length + 1)
    match cmp it.key x.key with
    | .lt => rbRemove it l (⟨true, c, x, r⟩ :: path)
    | .gt => rbRemove it r (⟨false, c, x, l⟩ :: path)
    | .eq => removeAt it c l x r path

def mapErase (m : RbMap K V) (it : Option (MapNode K V)) : Except PathFault (RbMap K V) :=
  match it with
  | none => .ok m
  | some x =>
    if m.size = 0 then .ok m
    else do
      let root ← rbRemove cmp x m.root []
      return { root, size := m.size - 1 }

end Compare

end PathArray

/-! ## No access fails -/

theorem pathAt_ok {i : Int} (hlow : 0 ≤ i) (hhigh : i < rbMaxDepth) : pathAt i = .ok () := if_pos ⟨hlow, hhigh⟩

theorem ok_bind {ε α β : Type} (a : α) (f : α → Except ε β) : (Except.ok a >>= f) = f a := rfl

theorem need_bind {α β : Type} (o : Option α) (f : α → Option β) : need (o >>= f) = need o >>= fun a => need (f a) := by
  cases o with
  | none => rfl
  | some a => rfl

theorem need_ne_index {α : Type} (o : Option α) (i : Int) : need o ≠ .error (.index i) := by
  cases o with
  | none => exact fun h => nomatch h
  | some a => exact fun h => nomatch h

theorem need_ite {α : Type} {p : Prop} [Decidable p] (a b : Option α) :
    need (if p then a else b) = if p then need a else need b := apply_ite need p a b

namespace PathArray

variable {t : MapTree K V} {path : List (Frame K V)}

theorem pathAbove_ok (h : path.length ≤ rbMaxDepth) : pathAbove path = .ok () := by
  cases path with
  | nil => rfl
  | cons f path =>
    have hlen : ((f :: path).length : Int) = path.length + 1 := Int.natCast_succ _
    rw [List.length_cons] at h
    exact pathAt_ok (by omega) (by omega)

theorem relink_eq (h : path.length ≤ rbMaxDepth) : relink path t = need (some (plug path t)) := by
  rw [relink, pathAbove_ok h]
  rfl

theorem relinkBelow_eq (h : path.length ≤ rbMaxDepth) : relinkBelow path t = need (plugBelow path t) := by
  cases path with
  | nil => rfl
  | cons f path =>
    have habove := pathAbove_ok h
    change (pathAt _ >>= fun _ => _) = _
    rw [show pathAt (((f :: path).length : Int) - 1) = .ok () from habove]
    rfl

theorem insertFix_eq (h : path.length < rbMaxDepth) : insertFix t path = need (Rv32emu.insertFix t path) := by
  induction path generalizing t with
  | nil => rfl
  | cons f path ih =>
    have hup : path.length < rbMaxDepth := Nat.lt_of_succ_lt h
    have hzero : pathAt 0 = .ok () := rfl
    have hhere : pathAt path.length = .ok () := pathAt_ok (Int.natCast_nonneg _) (by omega)
    have hbelow : pathAt (path.length + 1) = .ok () := pathAt_ok (by omega) (by rw [List.length_cons] at h; omega)
    unfold insertFix Rv32emu.insertFix
    simp only [hhere, hbelow, hzero, ok_bind, need_bind, need_ite, ih hup]
    rfl

theorem removeFix_eq (h : path.length < rbMaxDepth) : removeFix t path = need (Rv32emu.removeFix t path) := by
  induction path generalizing t with
  | nil =>
    have hzero : pathAt 0 = .ok () := rfl
    unfold removeFix Rv32emu.removeFix
    simp only [hzero, ok_bind, need_ite]
    rfl
  | cons f path ih =>
    have hup : path.length < rbMaxDepth := Nat.lt_of_succ_lt h
    have hle : path.length ≤ rbMaxDepth := Nat.le_of_lt hup
    have hhere : pathAt path.length = .ok () := pathAt_ok (Int.natCast_nonneg _) (by omega)
    have hbelow : pathAt (path.length + 1) = .ok () := pathAt_ok (by omega) (by rw [List.length_cons] at h; omega)
    unfold removeFix Rv32emu.removeFix
    simp only [hhere, hbelow, ok_bind, need_bind, need_ite, ih hup, relink_eq hle, relinkBelow_eq hle]
    rfl

theorem pruneLeaf_eq {c : MapColor} (h : path.length < rbMaxDepth) (hne : path ≠ []) :
    pruneLeaf c path = need (Rv32emu.pruneLeaf c path) := by
  have hhere : pathAt path.length = .ok () := pathAt_ok (Int.natCast_nonneg _) (by omega)
  have hlen := List.length_pos_of_ne_nil hne
  have habove : pathAt (path.length - 1) = .ok () := pathAt_ok (by omega) (by omega)
  unfold pruneLeaf Rv32emu.pruneLeaf
  simp only [hhere, habove, ok_bind, need_ite, removeFix_eq h]
  cases path with
  | nil => exact absurd rfl hne
  | cons f path =>
    simp only [need_ite]
    rfl

theorem successor_eq {base : Nat} {c : MapColor} {x : MapNode K V} {r l : MapTree K V} {spine : List (Frame K V)}
    (h : base + spine.length + height l + 1 < rbMaxDepth) :
    successor base c x r l spine = .ok (Rv32emu.successor c x r l spine) := by
  have hhere : pathAt (base + spine.length) = .ok () := pathAt_ok (by omega) (by omega)
  have hbelow : pathAt (base + spine.length + 1) = .ok () := pathAt_ok (by omega) (by omega)
  induction l generalizing c x r spine with
  | nil =>
    unfold successor Rv32emu.successor
    rw [hhere, hbelow]
    rfl
  | node c' l' x' r' ihl ihr =>
    rw [height] at h
    have hstep : base + (⟨true, c, x, r⟩ :: spine : List (Frame K V)).length + height l' + 1 < rbMaxDepth := by
      rw [List.length_cons]
      omega
    unfold successor Rv32emu.successor
    rw [hhere, hbelow]
    refine ihl hstep ?_ ?_
    · exact pathAt_ok (by omega) (by omega)
    · exact pathAt_ok (by omega) (by omega)

theorem length_successor {c : MapColor} {x : MapNode K V} {r l : MapTree K V} {spine : List (Frame K V)} :
    (Rv32emu.successor c x r l spine).1.length ≤ spine.length + height l := by
  induction l generalizing c x r spine with
  | nil => exact Nat.le_refl _
  | node c' l' x' r' ihl ihr =>
    have hstep := @ihl c' x' r' (⟨true, c, x, r⟩ :: spine)
    rw [List.length_cons] at hstep
    rw [height]
    unfold Rv32emu.successor
    omega

theorem removeAt_eq {it : MapNode K V} {c : MapColor} {l : MapTree K V} {x : MapNode K V} {r : MapTree K V}
    (h : path.length + height (.node c l x r) < rbMaxDepth) :
    removeAt it c l x r path = need (if x.addr = it.addr then Rv32emu.removeAt c l r path else none) := by
  rw [height] at h
  have hhere : pathAt path.length = .ok () := pathAt_ok (Int.natCast_nonneg _) (by omega)
  have hle : path.length ≤ rbMaxDepth := by omega
  cases r with
  | node c' l' x' r' =>
    rw [height] at h
    have hspine := @length_successor K V c' x' r' l' []
    rw [List.length_nil, Nat.zero_add] at hspine
    have hsucc : successor (path.length + 1) c' x' r' l' [] = .ok (Rv32emu.successor c' x' r' l' []) :=
      successor_eq (by rw [List.length_nil]; omega)
    generalize hfound : Rv32emu.successor c' x' r' l' [] = found at hspine hsucc
    obtain ⟨spine, color, y⟩ := found
    dsimp only at hspine
    have hend : pathAt (path.length + 1 + spine.length) = .ok () := pathAt_ok (by omega) (by omega)
    have hlen : (spine ++ ⟨false, c, y, l⟩ :: path).length < rbMaxDepth := by
      rw [List.length_append, List.length_cons]
      omega
    have hne : spine ++ ⟨false, c, y, l⟩ :: path ≠ [] := List.append_ne_nil_of_right_ne_nil _ (List.cons_ne_nil _ _)
    unfold removeAt Rv32emu.removeAt
    simp only [hsucc, hfound, ok_bind, hhere, hend, pathAbove_ok hle, need_ite, pruneLeaf_eq hlen hne]
    rfl
  | nil =>
    have hbelow : pathAt (path.length + 1) = .ok () := pathAt_ok (by omega) (by omega)
    unfold removeAt Rv32emu.removeAt
    simp only [ok_bind, hhere, hbelow, need_ite]
    cases l with
    | nil =>
      have hcolor : ¬ (MapTree.nil : MapTree K V).color.isSome = true := Bool.false_ne_true
      rw [if_neg hcolor, if_neg hcolor]
      cases path with
      | nil =>
        have hempty : ([] : List (Frame K V)).isEmpty = true := rfl
        rw [if_pos hempty, if_pos hempty]
        rfl
      | cons f path =>
        rw [pruneLeaf_eq (by omega) (List.cons_ne_nil f path)]
        rfl
    | node c' l' y r' =>
      have hlink : relink path (.node .black l' y r') = need (some (plug path (.node .black l' y r'))) := relink_eq hle
      change (if _ then (if _ then relink path _ else _) else _) = _
      rw [hlink]
      rfl

section Compare

variable {cmp : K → K → Ordering} {key : K}

theorem insertUnique_eq (h : path.length + height t < rbMaxDepth) :
    insertUnique cmp key t path = .ok (Rv32emu.insertUnique cmp key t path) := by
  have hhere : pathAt path.length = .ok () := pathAt_ok (Int.natCast_nonneg _) (by omega)
  induction t generalizing path with
  | nil =>
    unfold insertUnique Rv32emu.insertUnique
    rw [hhere]
    rfl
  | node c l x r ihl ihr =>
    rw [height] at h
    have hbelow : pathAt (path.length + 1) = .ok () := pathAt_ok (by omega) (by omega)
    have hl : ∀ f : Frame K V, (f :: path).length + height l < rbMaxDepth := fun f => by
      rw [List.length_cons]
      omega
    have hr : ∀ f : Frame K V, (f :: path).length + height r < rbMaxDepth := fun f => by
      rw [List.length_cons]
      omega
    unfold insertUnique Rv32emu.insertUnique
    rw [hhere, ok_bind, if_neg (by omega), if_neg (by omega)]
    cases cmp key x.key with
    | eq => rfl
    | lt =>
      dsimp only
      rw [hbelow]
      exact ihl (hl _) hbelow
    | gt =>
      dsimp only
      rw [hbelow]
      exact ihr (hr _) hbelow

theorem rbRemove_eq {it : MapNode K V} (h : path.length + height t < rbMaxDepth) :
    rbRemove cmp it t path = need (Rv32emu.rbRemove cmp it t path) := by
  have hhere : pathAt path.length = .ok () := pathAt_ok (Int.natCast_nonneg _) (by omega)
  induction t generalizing path with
  | nil =>
    unfold rbRemove Rv32emu.rbRemove
    rw [hhere]
    rfl
  | node c l x r ihl ihr =>
    have hat := @removeAt_eq K V path it c l x r h
    rw [height] at h
    have hbelow : pathAt (path.length + 1) = .ok () := pathAt_ok (by omega) (by omega)
    have hl : ∀ f : Frame K V, (f :: path).length + height l < rbMaxDepth := fun f => by
      rw [List.length_cons]
      omega
    have hr : ∀ f : Frame K V, (f :: path).length + height r < rbMaxDepth := fun f => by
      rw [List.length_cons]
      omega
    unfold rbRemove Rv32emu.rbRemove
    rw [hhere, hbelow, ok_bind, ok_bind]
    cases cmp it.key x.key with
    | eq => exact hat
    | lt => exact ihl (hl _) hbelow
    | gt => exact ihr (hr _) hbelow

end Compare

end PathArray

/-! ## Runs -/

/-- The nodes on each way from the root to a null link. -/
def leafPaths : MapTree K V → List (List (MapNode K V))
  | .nil => [[]]
  | .node _ l x r => (leafPaths l ++ leafPaths r).map (x :: ·)

theorem length_le_height {t : MapTree K V} {p : List (MapNode K V)} (h : p ∈ leafPaths t) : p.length ≤ height t := by
  induction t generalizing p with
  | nil =>
    obtain rfl := List.mem_singleton.mp h
    exact Nat.le_refl 0
  | node c l x r ihl ihr =>
    rw [leafPaths] at h
    obtain ⟨q, hq, rfl⟩ := List.mem_map.mp h
    rw [List.length_cons, height]
    rcases List.mem_append.mp hq with hq | hq
    · exact Nat.succ_le_succ ((ihl hq).trans (Nat.le_max_left _ _))
    · exact Nat.succ_le_succ ((ihr hq).trans (Nat.le_max_right _ _))

/-- Red and black nodes alternate at most, and the black ones are counted by the black height. -/
theorem Balanced.height_le_log {t : MapTree K V} {n : Nat} (h : Balanced t .black n) :
    height t ≤ 2 * Nat.log 2 (t.toList.length + 1) := by
  obtain ⟨hheight, hcount⟩ := h.height_le
  have hlog : n ≤ Nat.log 2 (t.toList.length + 1) := Nat.le_log_of_pow_le (by decide) hcount
  simp only [reduceCtorEq, if_false] at hheight
  omega

section Balance

variable {cmp : K → K → Ordering}

/-- The free link that `rb_insert_unique` ends at is a hole for a leaf, and not deeper than the tree. -/
theorem insertUnique_hole {key : K} {t : MapTree K V} {path path' : List (Frame K V)} {red : Bool} {n : Nat}
    (h : Hole path red n) (ht : Fits t red n) (hpoint : insertUnique cmp key t path = .free path') :
    (∃ red', Hole path' red' 0) ∧ path'.length ≤ path.length + height t := by
  induction t generalizing path red n with
  | nil =>
    unfold insertUnique at hpoint
    split_ifs at hpoint
    obtain rfl := InsertPoint.free.inj hpoint
    obtain ⟨c, hnil, -⟩ := ht
    cases hnil
    exact ⟨⟨red, h⟩, Nat.le_refl _⟩
  | node c l x r ihl ihr =>
    unfold insertUnique at hpoint
    split_ifs at hpoint
    rw [height]
    cases hcmp : cmp key x.key with
    | eq =>
      rw [hcmp] at hpoint
      cases hpoint
    | lt =>
      rw [hcmp] at hpoint
      obtain ⟨red', n', hleft, hfits⟩ := h.left ht
      obtain ⟨hhole, hlen⟩ := ihl hleft hfits hpoint
      rw [List.length_cons] at hlen
      exact ⟨hhole, by omega⟩
    | gt =>
      rw [hcmp] at hpoint
      obtain ⟨n', hright, hbal⟩ := h.right ht x
      obtain ⟨hhole, hlen⟩ := ihr hright (hbal.fits _) hpoint
      rw [List.length_cons] at hlen
      exact ⟨hhole, by omega⟩

theorem rbRemove_balanced {it : MapNode K V} {t t' : MapTree K V} {path : List (Frame K V)} {red : Bool} {n : Nat}
    (h : Hole path red n) (ht : Fits t red n) (hrem : rbRemove cmp it t path = some t') :
    ∃ m, Balanced t' .black m := by
  induction t generalizing path red n with
  | nil => cases hrem
  | node c l x r ihl ihr =>
    unfold rbRemove at hrem
    cases hcmp : cmp it.key x.key with
    | eq =>
      rw [hcmp] at hrem
      dsimp only at hrem
      split_ifs at hrem
      obtain ⟨u, m, hat, hbal, -⟩ := removeAt_spec h ht
      obtain rfl := Option.some.inj (hat.symm.trans hrem)
      exact ⟨m, hbal⟩
    | lt =>
      rw [hcmp] at hrem
      obtain ⟨red', n', hleft, hfits⟩ := h.left ht
      exact ihl hleft hfits hrem
    | gt =>
      rw [hcmp] at hrem
      obtain ⟨n', hright, hbal⟩ := h.right ht x
      exact ihr hright (hbal.fits _) hrem

variable {m : RbMap K V} {n : Nat}

theorem Balanced.mapInsert (h : Balanced m.root .black n) {key : K} {val : V} {mem : Option MapAddr}
    {r : Bool × RbMap K V} (hstep : mapInsert cmp m key val mem = some r) : ∃ n', Balanced r.2.root .black n' := by
  unfold Rv32emu.mapInsert at hstep
  cases hpoint : insertUnique cmp key m.root [] with
  | found x =>
    rw [hpoint] at hstep
    obtain rfl := Option.some.inj hstep
    exact ⟨n, h⟩
  | tooDeep =>
    rw [hpoint] at hstep
    obtain rfl := Option.some.inj hstep
    exact ⟨n, h⟩
  | free path =>
    obtain ⟨⟨red, hhole⟩, -⟩ := insertUnique_hole (Hole.root n) (h.fits false) hpoint
    rw [hpoint] at hstep
    cases mem with
    | none =>
      obtain rfl := Option.some.inj hstep
      exact ⟨n, h⟩
    | some addr =>
      obtain ⟨c, t, k, hfix, hbal, hlist⟩ := insertFix_spec hhole
        (Grown.balanced (Balanced.red (x := ⟨addr, key, val⟩) .nil .nil) node_ne_nil)
      obtain ⟨root, k', hpaint, hroot, -⟩ := hbal.paint_black (by simp [hlist, toList])
      simp only [hfix, hpaint, Option.bind_eq_bind, Option.bind_some, Option.pure_def] at hstep
      obtain rfl := Option.some.inj hstep
      exact ⟨k', hroot⟩

theorem Balanced.mapErase (h : Balanced m.root .black n) {it : Option (MapNode K V)} {m' : RbMap K V}
    (hstep : mapErase cmp m it = some m') : ∃ n', Balanced m'.root .black n' := by
  unfold Rv32emu.mapErase at hstep
  cases it with
  | none =>
    obtain rfl := Option.some.inj hstep
    exact ⟨n, h⟩
  | some x =>
    dsimp only at hstep
    split_ifs at hstep
    · obtain rfl := Option.some.inj hstep
      exact ⟨n, h⟩
    · obtain ⟨t, hrem, rfl⟩ := Option.map_eq_some_iff.mp hstep
      exact rbRemove_balanced (Hole.root n) (h.fits false) hrem

theorem MapRun.balanced {hist : List (MapEvent K V)} (h : MapRun cmp hist m) : ∃ n, Balanced m.root .black n := by
  induction h with
  | new => exact ⟨0, .nil⟩
  | inserted h hstep ih =>
    obtain ⟨n, hn⟩ := ih
    exact hn.mapInsert hstep
  | rejected h hstep ih =>
    obtain ⟨n, hn⟩ := ih
    exact hn.mapInsert hstep
  | erased h hfind hstep ih =>
    obtain ⟨n, hn⟩ := ih
    exact hn.mapErase hstep
  | cleared h ih => exact ⟨0, .nil⟩

/-- Below 2^60 nodes the longest way leaves room for its null link. -/
theorem Balanced.height_lt (h : Balanced m.root .black n) (hnodes : m.root.toList.length < 2 ^ 60) :
    height m.root < rbMaxDepth := by
  have hheight := h.height_le_log
  have hlog : Nat.log 2 (m.root.toList.length + 1) ≤ 60 := by
    have hmono := Nat.log_mono_right (b := 2) (Nat.succ_le_of_lt hnodes)
    rwa [Nat.log_pow (by decide)] at hmono
  have hdepth : rbMaxDepth = 128 := rfl
  omega

theorem mapInsert_path (h : Balanced m.root .black n) (hnodes : m.root.toList.length < 2 ^ 60) (key : K) (val : V)
    (mem : Option MapAddr) : PathArray.mapInsert cmp m key val mem = need (mapInsert cmp m key val mem) := by
  have hlt := h.height_lt hnodes
  unfold PathArray.mapInsert mapInsert
  rw [PathArray.insertUnique_eq (by rw [List.length_nil]; omega), ok_bind]
  cases hpoint : insertUnique cmp key m.root [] with
  | found x => rfl
  | tooDeep => rfl
  | free path =>
    obtain ⟨-, hlen⟩ := insertUnique_hole (Hole.root n) (h.fits false) hpoint
    rw [List.length_nil] at hlen
    have hend : pathAt path.length = .ok () := pathAt_ok (Int.natCast_nonneg _) (by omega)
    cases mem with
    | none => rfl
    | some addr =>
      dsimp only
      rw [hend, ok_bind, PathArray.insertFix_eq (by omega)]
      simp only [need_bind]
      rfl

theorem mapErase_path (h : Balanced m.root .black n) (hnodes : m.root.toList.length < 2 ^ 60)
    (it : Option (MapNode K V)) : PathArray.mapErase cmp m it = need (mapErase cmp m it) := by
  have hlt := h.height_lt hnodes
  cases it with
  | none => rfl
  | some x =>
    unfold PathArray.mapErase mapErase
    dsimp only
    rw [need_ite, PathArray.rbRemove_eq (by rw [List.length_nil]; omega)]
    cases rbRemove cmp x m.root [] with
    | none => rfl
    | some root => rfl

end Balance

/-- **The path arrays never overflow.** Every way from the root to a null link has at most `2 * log2(n + 1)` nodes,
rounded down. With less than 2^60 nodes no access of `map_insert` or `rb_remove` leaves its array, and the functions
with these checks do what they do without. -/
theorem mapRun_pathBounded {cmp : K → K → Ordering} {hist : List (MapEvent K V)} {m : RbMap K V}
    (h : MapRun cmp hist m) :
    (∀ p ∈ leafPaths m.root, p.length ≤ 2 * Nat.log 2 (m.root.toList.length + 1)) ∧
      (m.root.toList.length < 2 ^ 60 →
        (∀ key val mem, PathArray.mapInsert cmp m key val mem = need (mapInsert cmp m key val mem) ∧
          ∀ i, PathArray.mapInsert cmp m key val mem ≠ .error (.index i)) ∧
        ∀ it, PathArray.mapErase cmp m it = need (mapErase cmp m it) ∧
          ∀ i, PathArray.mapErase cmp m it ≠ .error (.index i)) := by
  obtain ⟨n, hn⟩ := h.balanced
  refine ⟨fun p hp => (length_le_height hp).trans hn.height_le_log, fun hnodes => ⟨fun key val mem => ?_, fun it => ?_⟩⟩
  · have heq := @mapInsert_path K V cmp m n hn hnodes key val mem
    exact ⟨heq, fun i => heq ▸ need_ne_index _ i⟩
  · have heq := @mapErase_path K V cmp m n hn hnodes it
    exact ⟨heq, fun i => heq ▸ need_ne_index _ i⟩

theorem threeMap_pathBounded :
    (∀ p ∈ leafPaths threeMap.root, p.length ≤ 2) ∧
      PathArray.mapErase compare threeMap (mapFind compare threeMap 3) =
        need (mapErase compare threeMap (mapFind compare threeMap 3)) := by
  obtain ⟨hpaths, hbounded⟩ := mapRun_pathBounded threeMap_run
  exact ⟨hpaths, ((hbounded (by decide)).2 _).1⟩

end Rv32emu
