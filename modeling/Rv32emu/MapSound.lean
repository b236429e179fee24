import Rv32emu.MapTree

/-!
# Red-black invariants of the map

The two loops that rebalance a tree, without the comparison that led to their place.

* `before`, `after` : the nodes on the two sides of a path;
* `Balanced`, `Hole` : a tree of a given root color and black height, and a path below which such a tree
  is missing;
* `insertFix_spec`, `removeFix_spec`, `removeAt_spec` : what is put into the hole, or is left in it, closes
  it without a failed assertion, and the other nodes keep their order.
-/

namespace Rv32emu

open MapTree

variable {K V : Type}

/-! ## The order of the nodes -/

def before : List (Frame K V) → List (MapNode K V)
  | [] => []
  | f :: path => before path ++ if f.less then [] else f.sib.toList ++ [f.x]

def after : List (Frame K V) → List (MapNode K V)
  | [] => []
  | f :: path => (if f.less then f.x :: f.sib.toList else []) ++ after path

theorem toList_plug (path : List (Frame K V)) (t : MapTree K V) :
    (plug path t).toList = before path ++ (t.toList ++ after path) := by
  induction path generalizing t with
  | nil => simp [plug, before, after]
  | cons f path ih =>
    obtain ⟨less, c, x, sib⟩ := f
    cases less <;> simp [plug, ih, Frame.node, before, after, toList]

/-! ## Balance -/

/-- A left-leaning tree with the given color of the root and number of black nodes on every path. -/
inductive Balanced : MapTree K V → MapColor → Nat → Prop
  | nil : Balanced .nil .black 0
  | black {l r : MapTree K V} {x : MapNode K V} {c : MapColor} {n : Nat} (hl : Balanced l c n)
      (hr : Balanced r .black n) : Balanced (.node .black l x r) .black (n + 1)
  | red {l r : MapTree K V} {x : MapNode K V} {n : Nat} (hl : Balanced l .black n)
      (hr : Balanced r .black n) : Balanced (.node .red l x r) .red n

/-- A path below which a tree of black height `n` is missing; `red` says whether its root may be red. -/
inductive Hole : List (Frame K V) → Bool → Nat → Prop
  | root (n : Nat) : Hole [] false n
  | blackLess {x : MapNode K V} {sib : MapTree K V} {path : List (Frame K V)} {red : Bool} {n : Nat}
      (hsib : Balanced sib .black n) (hpath : Hole path red (n + 1)) :
      Hole (⟨true, .black, x, sib⟩ :: path) true n
  | blackGreater {x : MapNode K V} {sib : MapTree K V} {path : List (Frame K V)} {red : Bool} {n : Nat}
      {c : MapColor} (hsib : Balanced sib c n) (hpath : Hole path red (n + 1)) :
      Hole (⟨false, .black, x, sib⟩ :: path) false n
  | redLess {x : MapNode K V} {sib : MapTree K V} {path : List (Frame K V)} {n : Nat}
      (hsib : Balanced sib .black n) (hpath : Hole path true n) :
      Hole (⟨true, .red, x, sib⟩ :: path) false n
  | redGreater {x : MapNode K V} {sib : MapTree K V} {path : List (Frame K V)} {n : Nat}
      (hsib : Balanced sib .black n) (hpath : Hole path true n) :
      Hole (⟨false, .red, x, sib⟩ :: path) false n

/-- A tree whose root has a color that the hole allows. -/
def Fits (t : MapTree K V) (red : Bool) (n : Nat) : Prop := ∃ c, Balanced t c n ∧ (c = .red → red = true)

theorem Balanced.fits {t : MapTree K V} {n : Nat} (h : Balanced t .black n) (red : Bool) : Fits t red n :=
  ⟨.black, h, fun hc => (nomatch hc)⟩

theorem Balanced.fits_true {t : MapTree K V} {c : MapColor} {n : Nat} (h : Balanced t c n) : Fits t true n :=
  ⟨c, h, fun _ => rfl⟩

theorem Fits.black {t : MapTree K V} {n : Nat} (h : Fits t false n) : Balanced t .black n := by
  obtain ⟨c, hb, hc⟩ := h
  cases c with
  | black => exact hb
  | red => cases hc rfl

protected theorem Hole.plug {path : List (Frame K V)} {red : Bool} {n : Nat} (h : Hole path red n) {t : MapTree K V}
    (ht : Fits t red n) : ∃ m, Balanced (plug path t) .black m := by
  induction h generalizing t with
  | root n => exact ⟨n, ht.black⟩
  | blackLess hsib _ ih =>
    obtain ⟨c, hc, -⟩ := ht
    exact ih ((Balanced.black hc hsib).fits _)
  | blackGreater hsib _ ih => exact ih ((Balanced.black hsib ht.black).fits _)
  | redLess hsib _ ih => exact ih (Balanced.red ht.black hsib).fits_true
  | redGreater hsib _ ih => exact ih (Balanced.red hsib ht.black).fits_true

/-- The root of a balanced tree that is not empty has a color. -/
theorem Balanced.color {t : MapTree K V} {c : MapColor} {n : Nat} (h : Balanced t c n) (hne : t ≠ .nil) :
    t.color = some c := by
  cases h with
  | nil => exact absurd rfl hne
  | black hl hr | red hl hr => rfl

theorem Balanced.isRed {t : MapTree K V} {c : MapColor} {n : Nat} (h : Balanced t c n) :
    t.isRed = decide (c = .red) := by
  cases h <;> rfl

/-- Below a black node of positive height there is a node. -/
theorem Balanced.exists_node {t : MapTree K V} {n : Nat} (h : Balanced t .black (n + 1)) :
    ∃ l x r c, t = .node .black l x r ∧ Balanced l c n ∧ Balanced r .black n := by
  cases h with
  | black hl hr => exact ⟨_, _, _, _, rfl, hl, hr⟩

theorem Balanced.exists_red {t : MapTree K V} {n : Nat} (h : Balanced t .red n) :
    ∃ l x r, t = .node .red l x r ∧ Balanced l .black n ∧ Balanced r .black n := by
  cases h with
  | red hl hr => exact ⟨_, _, _, rfl, hl, hr⟩

/-! ## Insertion -/

/-- What the loop of `map_insert` carries upwards; a red root may have a red left child where the parent is
black. -/
inductive Grown : MapTree K V → Bool → Nat → Prop
  | balanced {t : MapTree K V} {c : MapColor} {red : Bool} {n : Nat} (h : Balanced t c n)
      (hne : t ≠ .nil) : Grown t red n
  | redRed {l r : MapTree K V} {x : MapNode K V} {n : Nat} (hl : Balanced l .red n)
      (hr : Balanced r .black n) : Grown (.node .red l x r) true n

/-- A loop over `path` ends with a balanced tree of the same nodes. -/
def Closes (c : MapColor) (o : Option (MapTree K V)) (path : List (Frame K V)) (t : MapTree K V) : Prop :=
  ∃ t' m, o = some t' ∧ Balanced t' c m ∧ t'.toList = before path ++ (t.toList ++ after path)

theorem node_ne_nil {c : MapColor} {l r : MapTree K V} {x : MapNode K V} : MapTree.node c l x r ≠ .nil :=
  fun h => (nomatch h)

/-- One turn of a loop goes on with the same nodes in the same order. -/
theorem Closes.step {c : MapColor} {o : Option (MapTree K V)} {f : Frame K V} {path : List (Frame K V)}
    {t t' : MapTree K V} (h : Closes c o path t') (hlist : t'.toList = (f.node t).toList) :
    Closes c o (f :: path) t := by
  obtain ⟨u, m, ho, hb, hu⟩ := h
  refine ⟨u, m, ho, hb, ?_⟩
  rw [hu, hlist, ← toList_plug, ← toList_plug]
  rfl

theorem Hole.closes {path : List (Frame K V)} {red : Bool} {n : Nat} (h : Hole path red n)
    {t : MapTree K V} (ht : Fits t red n) : Closes .black (some (plug path t)) path t := by
  obtain ⟨m, hm⟩ := h.plug ht
  exact ⟨_, m, rfl, hm, toList_plug path t⟩

theorem insertFix_black {f : Frame K V} {path : List (Frame K V)} {l r : MapTree K V} {x : MapNode K V} :
    insertFix (.node .black l x r) (f :: path) = some (plug path (f.node (.node .black l x r))) := rfl

/-- A red child without a red left child stays below a left link. -/
theorem insertFix_less {c : MapColor} {x y : MapNode K V} {sib l r : MapTree K V} {path : List (Frame K V)}
    (hl : l.isRed = false) :
    insertFix (.node .red l y r) (⟨true, c, x, sib⟩ :: path) =
      insertFix (.node c (.node .red l y r) x sib) path :=
  if_neg (ne_true_of_eq_false hl)

theorem insertFix_rotate {c : MapColor} {x y z : MapNode K V} {sib a b r : MapTree K V}
    {path : List (Frame K V)} :
    insertFix (.node .red (.node .red a z b) y r) (⟨true, c, x, sib⟩ :: path) =
      insertFix (.node .red (.node .black a z b) y (.node c r x sib)) path := rfl

theorem insertFix_split {c : MapColor} {x y z : MapNode K V} {l r a b : MapTree K V}
    {path : List (Frame K V)} :
    insertFix (.node .red l y r) (⟨false, c, x, .node .red a z b⟩ :: path) =
      insertFix (.node .red (.node .black a z b) x (.node .black l y r)) path := rfl

theorem insertFix_lean {c : MapColor} {x y : MapNode K V} {l r sib : MapTree K V}
    {path : List (Frame K V)} (hsib : sib.isRed = false) :
    insertFix (.node .red l y r) (⟨false, c, x, sib⟩ :: path) =
      insertFix (.node c (.node .red sib x l) y r) path :=
  if_neg (ne_true_of_eq_false hsib)

theorem insertFix_spec {path : List (Frame K V)} {red : Bool} {n : Nat} (h : Hole path red n)
    {t : MapTree K V} (ht : Grown t red n) : ∃ c, Closes c (insertFix t path) path t := by
  induction h generalizing t with
  | root n =>
    cases ht with
    | @balanced _ c _ _ hb hne => exact ⟨c, t, n, rfl, hb, by simp [before, after]⟩
  | blackLess hsib hpath ih =>
    cases ht with
    | balanced hb hne =>
      cases hb with
      | nil => exact absurd rfl hne
      | black hl hr =>
        rw [insertFix_black]
        exact ⟨_, (hpath.closes ((Balanced.black (.black hl hr) hsib).fits _)).step rfl⟩
      | red hl hr =>
        rw [insertFix_less hl.isRed]
        obtain ⟨c, hc⟩ := ih (.balanced (.black (.red hl hr) hsib) node_ne_nil)
        exact ⟨c, hc.step rfl⟩
    | redRed hl hr =>
      obtain ⟨a, z, b, rfl, ha, hb⟩ := hl.exists_red
      rw [insertFix_rotate]
      obtain ⟨c, hc⟩ := ih (.balanced (.red (.black ha hb) (.black hr hsib)) node_ne_nil)
      exact ⟨c, hc.step (by simp [Frame.node, toList])⟩
  | @blackGreater _ _ _ _ _ csib hsib hpath ih =>
    cases ht with
    | balanced hb hne =>
      cases hb with
      | nil => exact absurd rfl hne
      | black hl hr =>
        rw [insertFix_black]
        exact ⟨_, (hpath.closes ((Balanced.black hsib (.black hl hr)).fits _)).step rfl⟩
      | red hl hr =>
        cases csib with
        | red =>
          obtain ⟨a, z, b, rfl, ha, hb⟩ := hsib.exists_red
          rw [insertFix_split]
          obtain ⟨c, hc⟩ := ih (.balanced (.red (.black ha hb) (.black hl hr)) node_ne_nil)
          exact ⟨c, hc.step (by simp [Frame.node, toList])⟩
        | black =>
          rw [insertFix_lean hsib.isRed]
          obtain ⟨c, hc⟩ := ih (.balanced (.black (.red hsib hl) hr) node_ne_nil)
          exact ⟨c, hc.step (by simp [Frame.node, toList])⟩
  | redLess hsib hpath ih =>
    cases ht with
    | balanced hb hne =>
      cases hb with
      | nil => exact absurd rfl hne
      | black hl hr =>
        rw [insertFix_black]
        exact ⟨_, (hpath.closes (Balanced.red (.black hl hr) hsib).fits_true).step rfl⟩
      | red hl hr =>
        rw [insertFix_less hl.isRed]
        obtain ⟨c, hc⟩ := ih (.redRed (.red hl hr) hsib)
        exact ⟨c, hc.step rfl⟩
  | redGreater hsib hpath ih =>
    cases ht with
    | balanced hb hne =>
      cases hb with
      | nil => exact absurd rfl hne
      | black hl hr =>
        rw [insertFix_black]
        exact ⟨_, (hpath.closes (Balanced.red hsib (.black hl hr)).fits_true).step rfl⟩
      | red hl hr =>
        rw [insertFix_lean hsib.isRed]
        obtain ⟨c, hc⟩ := ih (.redRed (.red hsib hl) hr)
        exact ⟨c, hc.step (by simp [Frame.node, toList])⟩

/-! ## Removal -/

section RemoveFix

variable {c : MapColor} {x y z w : MapNode K V} {t a b d e l r : MapTree K V} {path : List (Frame K V)}

theorem plugBelow_of_ne (h : path ≠ []) (t : MapTree K V) : plugBelow path t = some (plug path t) := by
  cases path with
  | nil => exact absurd rfl h
  | cons f path => rfl

theorem removeFix_less_red_red (hpath : path ≠ []) :
    removeFix t (⟨true, .red, x, .node c (.node .red a y b) z d⟩ :: path) =
      some (plug path (.node .red (.node .black t x a) y (.node c b z d))) := by
  change plugBelow path (.node .red (.node .black t x a) y (.node c b z d)) = _
  rw [plugBelow_of_ne hpath]

theorem removeFix_less_red (hpath : path ≠ []) (hl : l.isRed = false) :
    removeFix t (⟨true, .red, x, .node c l z d⟩ :: path) =
      some (plug path (.node c (.node .red t x l) z d)) := by
  change (if l.isRed = true then _ else plugBelow path (.node c (.node .red t x l) z d)) = _
  rw [if_neg (ne_true_of_eq_false hl), plugBelow_of_ne hpath]

theorem removeFix_less_black_red :
    removeFix t (⟨true, .black, x, .node c (.node .red a y b) z d⟩ :: path) =
      some (plug path (.node .black (.node .black t x a) y (.node c b z d))) := rfl

theorem removeFix_less_black (hl : l.isRed = false) :
    removeFix t (⟨true, .black, x, .node c l z d⟩ :: path) =
      removeFix (.node c (.node .red t x l) z d) path :=
  if_neg (ne_true_of_eq_false hl)

theorem removeFix_greater_left_red_red :
    removeFix t (⟨false, c, x, .node .red l y (.node .black (.node .red a w b) z d)⟩ :: path) =
      some (plug path (.node .black (.node .red l y (.node .black a w b)) z (.node c d x t))) := rfl

theorem removeFix_greater_left_red (ha : a.isRed = false) :
    removeFix t (⟨false, c, x, .node .red l y (.node .black a z d)⟩ :: path) =
      some (plug path (.node .black l y (.node c (.node .red a z d) x t))) :=
  if_neg (ne_true_of_eq_false ha)

theorem removeFix_greater_red_red (hpath : path ≠ []) :
    removeFix t (⟨false, .red, x, .node .black (.node .red a w b) y r⟩ :: path) =
      some (plug path (.node .red (.node .black a w b) y (.node .black r x t))) := by
  change plugBelow path (.node .red (.node .black a w b) y (.node .black r x t)) = _
  rw [plugBelow_of_ne hpath]

theorem removeFix_greater_red (hl : l.isRed = false) :
    removeFix t (⟨false, .red, x, .node .black l y r⟩ :: path) =
      some (plug path (.node .black (.node .red l y r) x t)) :=
  if_neg (ne_true_of_eq_false hl)

theorem removeFix_greater_black_red :
    removeFix t (⟨false, .black, x, .node .black (.node .red a w b) y r⟩ :: path) =
      some (plug path (.node .black (.node .black a w b) y (.node .black r x t))) := rfl

theorem removeFix_greater_black (hl : l.isRed = false) :
    removeFix t (⟨false, .black, x, .node .black l y r⟩ :: path) =
      removeFix (.node .black (.node .red l y r) x t) path :=
  if_neg (ne_true_of_eq_false hl)

end RemoveFix

theorem Hole.ne_nil_of_true {path : List (Frame K V)} {n : Nat} (h : Hole path true n) : path ≠ [] := by
  rintro rfl
  cases h

/-- The loop of `rb_remove` restores the black height that the hole below `path` has lost. -/
theorem removeFix_spec {path : List (Frame K V)} {red : Bool} {n : Nat} (h : Hole path red (n + 1))
    {t : MapTree K V} (ht : Balanced t .black n) (hne : path = [] → t ≠ .nil) :
    Closes .black (removeFix t path) path t := by
  induction path generalizing red n t with
  | nil =>
    have hc := ht.color (hne rfl)
    refine ⟨t, n, ?_, ht, by simp [before, after]⟩
    simp [removeFix, hc]
  | cons f path ih =>
    cases h with
    | redLess hsib hpath =>
      obtain ⟨l, z, r, c, rfl, hl, hr⟩ := hsib.exists_node
      cases c with
      | red =>
        obtain ⟨a, y, b, rfl, ha, hb⟩ := hl.exists_red
        rw [removeFix_less_red_red hpath.ne_nil_of_true]
        refine (hpath.closes (Balanced.red (.black ht ha) (.black hb hr)).fits_true).step ?_
        simp [Frame.node, toList]
      | black =>
        rw [removeFix_less_red hpath.ne_nil_of_true hl.isRed]
        refine (hpath.closes ((Balanced.black (.red ht hl) hr).fits _)).step ?_
        simp [Frame.node, toList]
    | blackLess hsib hpath =>
      obtain ⟨l, z, r, c, rfl, hl, hr⟩ := hsib.exists_node
      cases c with
      | red =>
        obtain ⟨a, y, b, rfl, ha, hb⟩ := hl.exists_red
        rw [removeFix_less_black_red]
        refine (hpath.closes ((Balanced.black (.black ht ha) (.black hb hr)).fits _)).step ?_
        simp [Frame.node, toList]
      | black =>
        rw [removeFix_less_black hl.isRed]
        refine (ih hpath (.black (.red ht hl) hr) fun _ => node_ne_nil).step ?_
        simp [Frame.node, toList]
    | @blackGreater _ _ _ _ _ c hsib hpath =>
      cases c with
      | red =>
        obtain ⟨l, y, r, rfl, hl, hr⟩ := hsib.exists_red
        obtain ⟨a, z, d, c, rfl, ha, hd⟩ := hr.exists_node
        cases c with
        | red =>
          obtain ⟨a, w, b, rfl, ha, hb⟩ := ha.exists_red
          rw [removeFix_greater_left_red_red]
          refine (hpath.closes ((Balanced.black (.red hl (.black ha hb)) (.black hd ht)).fits _)).step ?_
          simp [Frame.node, toList]
        | black =>
          rw [removeFix_greater_left_red ha.isRed]
          refine (hpath.closes ((Balanced.black hl (.black (.red ha hd) ht)).fits _)).step ?_
          simp [Frame.node, toList]
      | black =>
        obtain ⟨l, y, r, c, rfl, hl, hr⟩ := hsib.exists_node
        cases c with
        | red =>
          obtain ⟨a, w, b, rfl, ha, hb⟩ := hl.exists_red
          rw [removeFix_greater_black_red]
          refine (hpath.closes ((Balanced.black (.black ha hb) (.black hr ht)).fits _)).step ?_
          simp [Frame.node, toList]
        | black =>
          rw [removeFix_greater_black hl.isRed]
          refine (ih hpath (.black (.red hl hr) ht) fun _ => node_ne_nil).step ?_
          simp [Frame.node, toList]
    | redGreater hsib hpath =>
      obtain ⟨l, y, r, c, rfl, hl, hr⟩ := hsib.exists_node
      cases c with
      | red =>
        obtain ⟨a, w, b, rfl, ha, hb⟩ := hl.exists_red
        rw [removeFix_greater_red_red hpath.ne_nil_of_true]
        refine (hpath.closes (Balanced.red (.black ha hb) (.black hr ht)).fits_true).step ?_
        simp [Frame.node, toList]
      | black =>
        rw [removeFix_greater_red hl.isRed]
        refine (hpath.closes ((Balanced.black (.red hl hr) ht).fits _)).step ?_
        simp [Frame.node, toList]

/-- A node without children is taken out of its hole. -/
theorem pruneLeaf_spec {path : List (Frame K V)} {red : Bool} {n : Nat} (h : Hole path red n) {c : MapColor}
    (hpath : path ≠ []) (hc : c = .red → red = true) (hn : n = if c = .red then 0 else 1) :
    Closes .black (pruneLeaf c path) path .nil := by
  cases c with
  | red =>
    obtain rfl := hc rfl
    obtain rfl : n = 0 := hn
    cases h with
    | blackLess hsib hup => exact Hole.closes (.blackLess hsib hup) (Balanced.nil.fits _)
  | black =>
    obtain rfl : n = 1 := hn
    exact removeFix_spec h .nil fun hnil => absurd hnil hpath

/-- A balanced tree whose left child is missing has no right child. -/
theorem Balanced.leaf {c : MapColor} {r : MapTree K V} {x : MapNode K V} {n : Nat}
    (h : Balanced (.node c .nil x r) c n) : r = .nil ∧ n = if c = .red then 0 else 1 := by
  cases h with
  | black hl hr =>
    cases hl
    cases hr
    exact ⟨rfl, rfl⟩
  | red hl hr =>
    cases hl
    cases hr
    exact ⟨rfl, rfl⟩

/-- A hole for a node is a hole for its left child. -/
theorem Hole.left {path : List (Frame K V)} {red : Bool} {n : Nat} (h : Hole path red n) {c : MapColor}
    {l r : MapTree K V} {x : MapNode K V} (ht : Fits (.node c l x r) red n) :
    ∃ red' n', Hole (⟨true, c, x, r⟩ :: path) red' n' ∧ Fits l red' n' := by
  obtain ⟨c', hb, hc⟩ := ht
  cases hb with
  | black hl hr => exact ⟨_, _, .blackLess hr h, hl.fits_true⟩
  | red hl hr =>
    obtain rfl := hc rfl
    exact ⟨_, _, .redLess hr h, hl.fits _⟩

/-- A hole for a node is a hole for its right child, whatever the content of the node. -/
theorem Hole.right {path : List (Frame K V)} {red : Bool} {n : Nat} (h : Hole path red n) {c : MapColor}
    {l r : MapTree K V} {x : MapNode K V} (ht : Fits (.node c l x r) red n) (y : MapNode K V) :
    ∃ n', Hole (⟨false, c, y, l⟩ :: path) false n' ∧ Balanced r .black n' := by
  obtain ⟨c', hb, hc⟩ := ht
  cases hb with
  | black hl hr => exact ⟨_, .blackGreater hl h, hr⟩
  | red hl hr =>
    obtain rfl := hc rfl
    exact ⟨_, .redGreater hl h, hr⟩

theorem Fits.node_color {c : MapColor} {l r : MapTree K V} {x : MapNode K V} {red : Bool} {n : Nat}
    (h : Fits (.node c l x r) red n) : Balanced (.node c l x r) c n ∧ (c = .red → red = true) := by
  obtain ⟨c', hb, hc⟩ := h
  have hcolor := hb.color node_ne_nil
  obtain rfl : c = c' := Option.some_inj.mp hcolor
  exact ⟨hb, hc⟩

/-- The way down to the successor ends in a hole for a single node, with everything on it to the right. -/
theorem successor_spec {c : MapColor} {x : MapNode K V} {r l : MapTree K V}
    {spine base : List (Frame K V)} {red : Bool} {n : Nat} (h : Hole (spine ++ base) red n)
    (ht : Fits (.node c l x r) red n) :
    ∃ spine' c' y, successor c x r l spine = (spine', c', y) ∧
      (∃ red' n', Hole (spine' ++ base) red' n' ∧ (c' = .red → red' = true) ∧
        n' = if c' = .red then 0 else 1) ∧
      before (spine' ++ base) = before (spine ++ base) ∧
      y :: after (spine' ++ base) = (MapTree.node c l x r).toList ++ after (spine ++ base) := by
  induction l generalizing c x r spine red n with
  | nil =>
    obtain ⟨hb, hc⟩ := ht.node_color
    obtain ⟨rfl, hn⟩ := hb.leaf
    exact ⟨spine, c, x, rfl, ⟨red, n, h, hc, hn⟩, rfl, rfl⟩
  | node c' l' x' r' ihl ihr =>
    obtain ⟨red', n', hleft, hfits⟩ := h.left ht
    obtain ⟨spine', c'', y, hs, hhole, hbefore, hafter⟩ :=
      @ihl c' x' r' (⟨true, c, x, r⟩ :: spine) red' n' hleft hfits
    refine ⟨spine', c'', y, hs, hhole, ?_, ?_⟩
    · rw [hbefore]
      simp [before]
    · rw [hafter]
      simp [after, toList]

/-- `rb_remove` at the node it was asked for. -/
theorem removeAt_spec {path : List (Frame K V)} {red : Bool} {n : Nat} (h : Hole path red n) {c : MapColor}
    {l r : MapTree K V} {x : MapNode K V} (ht : Fits (.node c l x r) red n) :
    ∃ t' m, removeAt c l r path = some t' ∧ Balanced t' .black m ∧
      t'.toList = before path ++ (l.toList ++ r.toList ++ after path) := by
  cases r with
  | node c' l' x' r' =>
    -- the content of the frame is the successor, which the way down finds first
    set y := (successor c' x' r' l' []).2.2 with hy
    obtain ⟨n', hright, hbal⟩ := h.right ht y
    obtain ⟨spine, color, z, hs, ⟨red', k, hhole, hc, hk⟩, hbefore, hafter⟩ :=
      @successor_spec K V c' x' r' l' [] (⟨false, c, y, l⟩ :: path) false n' hright (hbal.fits _)
    have hz : y = z := by rw [hy, hs]
    obtain ⟨t', m, ho, hm, hlist⟩ := pruneLeaf_spec hhole (by simp) hc hk
    refine ⟨t', m, ?_, hm, ?_⟩
    · simp only [removeAt, hs]
      rw [← hz]
      exact ho
    · rw [hlist, hbefore, hz]
      simp only [toList, List.nil_append, before, after, hz] at hafter ⊢
      simp [hafter]
  | nil =>
    obtain ⟨hb, hc⟩ := ht.node_color
    cases l with
    | nil =>
      obtain ⟨-, hn⟩ := hb.leaf
      cases path with
      | nil => exact ⟨.nil, 0, rfl, .nil, rfl⟩
      | cons f path =>
        obtain ⟨t', m, ho, hm, hlist⟩ := pruneLeaf_spec h (by simp) hc hn
        exact ⟨t', m, ho, hm, by simpa [toList] using hlist⟩
    | node c' l' y r' =>
      -- a single child is red, and its parent black
      cases hb with
      | red hl hr =>
        cases hr
        cases hl
      | black hl hr =>
        cases hr
        cases hl with
        | red hl' hr' =>
          obtain ⟨m, hm⟩ := h.plug ((Balanced.black hl' hr').fits red)
          refine ⟨_, m, rfl, hm, ?_⟩
          rw [toList_plug]
          simp [toList]

end Rv32emu
