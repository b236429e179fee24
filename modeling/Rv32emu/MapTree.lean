import Mathlib.Data.List.Basic
import Mathlib.Tactic.Common

/-!
# The red-black map of `map.c`

The container behind the breakpoint table and the file descriptors, with its trees as values: a node that
is reached through one pointer only is updated in place by building it again.

* `MapTree`, `MapNode` : the nodes; a node is told apart from an equal one by the address `malloc` gave it;
* `Frame`, `plug` : an entry of the array `path` and the nodes above the one it ends at;
* `insertUnique`, `insertFix`, `mapInsert`, `mapFind`, `mapErase`, `mapClear`;
* `rbRemove`, `removeFix` : `none` is a failed assertion or a null pointer that is followed.
-/

namespace Rv32emu

inductive MapColor
  | black | red
  deriving DecidableEq, Repr

/-- What `malloc` returns: the lowest bit is free for the color, as `rb_node_init` asserts. -/
abbrev MapAddr := { a : Nat // a % 2 = 0 }

/-- `map_node_t` without its links. -/
structure MapNode (K V : Type) where
  addr : MapAddr
  key : K
  data : V

inductive MapTree (K V : Type)
  | nil
  | node (color : MapColor) (left : MapTree K V) (x : MapNode K V) (right : MapTree K V)

variable {K V : Type}

namespace MapTree

/-- `rb_node_get_color`. -/
def color : MapTree K V → Option MapColor
  | nil => none
  | node c _ _ _ => some c

/-- `node && RB_IS_RED(node)`. -/
def isRed (t : MapTree K V) : Bool := t.color = some .red

/-- `rb_node_get_left`. -/
def left : MapTree K V → Option (MapTree K V)
  | nil => none
  | node _ l _ _ => some l

/-- `rb_node_get_right`. -/
def right : MapTree K V → Option (MapTree K V)
  | nil => none
  | node _ _ _ r => some r

def setLeft : MapTree K V → MapTree K V → Option (MapTree K V)
  | nil, _ => none
  | node c _ x r, l => some (node c l x r)

def setRight : MapTree K V → MapTree K V → Option (MapTree K V)
  | nil, _ => none
  | node c l x _, r => some (node c l x r)

/-- `rb_node_set_color`. -/
def paint : MapTree K V → MapColor → Option (MapTree K V)
  | nil, _ => none
  | node _ l x r, c => some (node c l x r)

/-- `rb_node_rotate_left`: the node that comes up. -/
def rotateLeft : MapTree K V → Option (MapTree K V)
  | node c l x (node c' l' y r') => some (node c' (node c l x l') y r')
  | _ => none

def rotateRight : MapTree K V → Option (MapTree K V)
  | node c (node c' l' y r') x r => some (node c' l' y (node c r' x r))
  | _ => none

def toList : MapTree K V → List (MapNode K V)
  | nil => []
  | node _ l x r => l.toList ++ x :: r.toList

end MapTree

open MapTree

/-! ## Paths -/

/-- `rb_path_entry_t` at a node: which child comes next, and the other one. -/
structure Frame (K V : Type) where
  /-- `MAP_CMP_LESS`. -/
  less : Bool
  color : MapColor
  x : MapNode K V
  sib : MapTree K V

/-- The node of an entry with `t` in place of the child that comes next. -/
def Frame.node (f : Frame K V) (t : MapTree K V) : MapTree K V :=
  if f.less then .node f.color t f.x f.sib else .node f.color f.sib f.x t

/-- The whole tree above `t`; the innermost entry comes first. -/
def plug : List (Frame K V) → MapTree K V → MapTree K V
  | [], t => t
  | f :: path, t => plug path (f.node t)

/-- `plug` where an assertion asks for an entry above. -/
def plugBelow (path : List (Frame K V)) (t : MapTree K V) : Option (MapTree K V) :=
  if path.isEmpty then none else some (plug path t)

/-! ## Insertion -/

def rbMaxDepth : Nat := 128

/-- How `rb_insert_unique` ends. -/
inductive InsertPoint (K V : Type)
  | found (x : MapNode K V)
  | tooDeep
  | free (path : List (Frame K V))

section Compare

variable (cmp : K → K → Ordering)

/-- `rb_insert_unique`, with the entries so far. -/
def insertUnique (key : K) : MapTree K V → List (Frame K V) → InsertPoint K V
  | .nil, path => if rbMaxDepth - 1 ≤ path.length then .tooDeep else .free path
  | .node c l x r, path =>
    if rbMaxDepth - 1 ≤ path.length then .tooDeep
    else match cmp key x.key with
      | .lt => insertUnique key l (⟨true, c, x, r⟩ :: path)
      | .gt => insertUnique key r (⟨false, c, x, l⟩ :: path)
      | .eq => .found x

/-- The loop of `map_insert` from the entry above `t` on. -/
def insertFix : MapTree K V → List (Frame K V) → Option (MapTree K V)
  | t, [] => some t
  | t, f :: path => do
    let cnode := f.node t
    if (← t.color) = .black then return plug path cnode
    else if f.less then
      let leftleft ← t.left
      if leftleft.isRed then
        -- fix up the 4-node
        let left ← t.setLeft (← leftleft.paint .black)
        insertFix (← (Frame.node f left).rotateRight) path
      else insertFix cnode path
    else
      if f.sib.isRed then
        -- split the 4-node
        let left ← f.sib.paint .black
        let right ← t.paint .black
        insertFix (.node .red left f.x right) path
      else
        -- lean left
        let tnode ← (MapTree.node .red f.sib f.x t).rotateLeft
        insertFix (← tnode.paint f.color) path

/-- `struct map_internal`. -/
structure RbMap (K V : Type) where
  root : MapTree K V := .nil
  size : Nat := 0

/-- `map_insert`; `mem` is what `malloc` returns. -/
def mapInsert (m : RbMap K V) (key : K) (val : V) (mem : Option MapAddr) :
    Option (Bool × RbMap K V) :=
  match insertUnique cmp key m.root [], mem with
  | .free path, some addr => do
    let root ← insertFix (.node .red .nil ⟨addr, key, val⟩ .nil) path
    return (true, { root := ← root.paint .black, size := m.size + 1 })
  | _, _ => some (false, m)

/-! ## Lookup -/

/-- The loop of `map_find`. -/
def findNode (key : K) : MapTree K V → Option (MapNode K V)
  | .nil => none
  | .node _ l x r =>
    match cmp key x.key with
    | .eq => some x
    | .lt => findNode key l
    | .gt => findNode key r

def mapFind (m : RbMap K V) (key : K) : Option (MapNode K V) := findNode cmp key m.root

/-! ## Removal -/

/-- The loop of `rb_remove` above a subtree `t` that has lost a black node. -/
def removeFix : MapTree K V → List (Frame K V) → Option (MapTree K V)
  | t, [] => if t.color = some .black then some t else none
  | t, f :: path => do
    if f.less then
      let right := f.sib
      let rightleft ← right.left
      if f.color = .red then
        if rightleft.isRed then
          let right ← right.rotateRight
          plugBelow path (← (MapTree.node .black t f.x right).rotateLeft)
        else plugBelow path (← (MapTree.node .red t f.x right).rotateLeft)
      else
        if rightleft.isRed then
          let right ← right.setLeft (← rightleft.paint .black)
          let right ← right.rotateRight
          return plug path (← (MapTree.node f.color t f.x right).rotateLeft)
        else removeFix (← (MapTree.node .red t f.x right).rotateLeft) path
    else
      let left := f.sib
      if (← left.color) = .red then
        let leftright ← left.right
        let leftrightleft ← leftright.left
        if leftrightleft.isRed then
          let leftright ← leftright.setLeft (← leftrightleft.paint .black)
          let left ← left.setRight leftright
          let unode ← (MapTree.node f.color left f.x t).rotateRight
          let tnode ← (← unode.right).rotateRight
          let unode ← unode.setRight tnode
          return plug path (← unode.rotateLeft)
        else
          let left ← left.setRight (← leftright.paint .red)
          let tnode ← (MapTree.node f.color left f.x t).rotateRight
          return plug path (← tnode.paint .black)
      else
        let leftleft ← left.left
        if f.color = .red then
          if leftleft.isRed then
            let left ← left.setLeft (← leftleft.paint .black)
            let left ← left.paint .red
            plugBelow path (← (MapTree.node .black left f.x t).rotateRight)
          else return plug path (.node .black (← left.paint .red) f.x t)
        else
          if leftleft.isRed then
            let left ← left.setLeft (← leftleft.paint .black)
            return plug path (← (MapTree.node f.color left f.x t).rotateRight)
          else removeFix (.node f.color (← left.paint .red) f.x t) path

/-- A node without children is taken out below `path`. -/
def pruneLeaf (c : MapColor) (path : List (Frame K V)) : Option (MapTree K V) :=
  if c = .red then
    match path with
    | [] => none
    | f :: _ => if f.less then some (plug path .nil) else none
  else removeFix .nil path

/-- The way down to the successor: the entries, and the color and the content of the node they end at. Its
links are not read again. -/
def successor (c : MapColor) (x : MapNode K V) (r : MapTree K V) :
    MapTree K V → List (Frame K V) → List (Frame K V) × MapColor × MapNode K V
  | .nil, path => (path, c, x)
  | .node c' l' x' r', path => successor c' x' r' l' (⟨true, c, x, r⟩ :: path)

/-- `rb_remove` once the node to remove has been found below `path`. -/
def removeAt (c : MapColor) (l : MapTree K V) (r : MapTree K V) (path : List (Frame K V)) :
    Option (MapTree K V) :=
  match r with
  | .node c' l' x' r' =>
    -- the successor takes the place, the color and the children of the node
    let (spine, color, y) := successor c' x' r' l' []
    pruneLeaf color (spine ++ ⟨false, c, y, l⟩ :: path)
  | .nil =>
    if l.color.isSome then
      if c = .black ∧ l.isRed then (l.paint .black).map (plug path) else none
    else if path.isEmpty then some .nil
    else pruneLeaf c path

def rbRemove (it : MapNode K V) : MapTree K V → List (Frame K V) → Option (MapTree K V)
  | .nil, _ => none
  | .node c l x r, path =>
    match cmp it.key x.key with
    | .lt => rbRemove it l (⟨true, c, x, r⟩ :: path)
    | .gt => rbRemove it r (⟨false, c, x, l⟩ :: path)
    | .eq => if x.addr = it.addr then removeAt c l r path else none

/-- `map_erase`; `it` is `NULL` if nothing was found. -/
def mapErase (m : RbMap K V) (it : Option (MapNode K V)) : Option (RbMap K V) :=
  match it with
  | none => some m
  | some x =>
    if m.size = 0 then some m
    else (rbRemove cmp x m.root []).map fun root => { root, size := m.size - 1 }

def mapClear (_ : RbMap K V) : RbMap K V := {}

end Compare

end Rv32emu
