import Mathlib.Data.List.Nodup
import Mathlib.Logic.Function.Basic

/-!
# Singly linked lists in a heap

* `ListHeap.Node`, `ListHeap.Heap` : cells with a value and the address of the next cell; an address without a cell is
  `none`;
* `Laid h e l` : the cells of `l` lie one behind the other, and the last one points to `e`;
* `Laid.congr`, `Laid.update` : what does not touch the cells of a list leaves it;
* `Laid.set_head`, `Laid.unlink` : a new value in the first cell, and taking out the second cell;
* `Laid.set_last` : a new pointer in the last cell;
* `modify`, `unlinkNext` : the two operations, with `modify_eq` and `Laid.unlinkNext`.
-/

namespace ListHeap

variable {α : Type*}

structure Node (α : Type*) where
  val : α
  next : Option Nat
  deriving DecidableEq, Repr

abbrev Heap (α : Type*) := Nat → Option (Node α)

/-- The address of the first cell, or `e` if there is none. -/
def first (e : Option Nat) : List (Nat × α) → Option Nat
  | [] => e
  | (a, _) :: _ => some a

abbrev addrs (l : List (Nat × α)) : List Nat := l.map Prod.fst

def Laid (h : Heap α) (e : Option Nat) : List (Nat × α) → Prop
  | [] => True
  | (a, v) :: l => h a = some ⟨v, first e l⟩ ∧ Laid h e l

/-- Writing to a cell; `none` where there is no cell. -/
def modify (h : Heap α) (a : Nat) (f : Node α → Node α) : Option (Heap α) :=
  (h a).map fun c => Function.update h a (some (f c))

/-- `p->next = p->next->next`, with the cell taken out freed, `n` times. -/
def unlinkNext (a : Nat) : Nat → Heap α → Option (Heap α)
  | 0, h => some h
  | n + 1, h =>
    (h a).bind fun c => c.next.bind fun b => (h b).bind fun d =>
      unlinkNext a n (Function.update (Function.update h a (some ⟨c.val, d.next⟩)) b none)

variable {h h' : Heap α} {e e' : Option Nat} {l l' : List (Nat × α)} {a b : Nat} {v w : α}

@[simp] theorem first_cons : first e ((a, v) :: l) = some a := rfl

theorem laid_cons : Laid h e ((a, v) :: l) ↔ h a = some ⟨v, first e l⟩ ∧ Laid h e l := Iff.rfl

theorem first_append : first e (l ++ l') = first (first e l') l := by
  cases l with
  | nil => rfl
  | cons x l => rfl

theorem first_congr (h : addrs l = addrs l') : first e l = first e l' := by
  cases l with
  | nil =>
    rw [List.map_eq_nil_iff.mp h.symm]
  | cons x l =>
    obtain ⟨y, l'', rfl, hy, -⟩ := List.map_eq_cons_iff.mp h.symm
    exact congrArg some hy.symm

theorem laid_append : Laid h e (l ++ l') ↔ Laid h (first e l') l ∧ Laid h e l' := by
  induction l with
  | nil => exact (and_iff_right trivial).symm
  | cons x l ih =>
    rw [List.cons_append, laid_cons, laid_cons, ih, first_append, and_assoc]

theorem Laid.congr (hl : Laid h e l) (hsame : ∀ x ∈ addrs l, h' x = h x) : Laid h' e l := by
  induction l with
  | nil => trivial
  | cons x l ih =>
    refine ⟨?_, ih hl.2 fun y hy => hsame y (List.mem_cons_of_mem _ hy)⟩
    rw [hsame x.1 List.mem_cons_self]
    exact hl.1

theorem Laid.update (hl : Laid h e l) (ha : a ∉ addrs l) (c : Option (Node α)) : Laid (Function.update h a c) e l :=
  hl.congr fun x hx => Function.update_of_ne (fun heq : x = a => ha (heq ▸ hx)) c h

/-- A list that ends in the null pointer has its cells where the heap has some. -/
theorem Laid.mem (hl : Laid h e l) (ha : a ∈ addrs l) : h a ≠ none := by
  induction l with
  | nil => exact absurd ha List.not_mem_nil
  | cons x l ih =>
    rcases List.mem_cons.mp ha with rfl | ha
    · rw [hl.1]
      exact Option.some_ne_none _
    · exact ih hl.2 ha

theorem Laid.set_head (hl : Laid h e ((a, v) :: l)) (hnd : (addrs ((a, v) :: l)).Nodup) (w : α) :
    Laid (Function.update h a (some ⟨w, first e l⟩)) e ((a, w) :: l) :=
  ⟨Function.update_self a _ h, hl.2.update (List.nodup_cons.mp hnd).1 _⟩

/-- `p->next = p->next->next; free(next)`. -/
theorem Laid.unlink (hl : Laid h e ((a, v) :: (b, w) :: l)) (hnd : (addrs ((a, v) :: (b, w) :: l)).Nodup) :
    Laid (Function.update (Function.update h a (some ⟨v, first e l⟩)) b none) e ((a, v) :: l) := by
  obtain ⟨ha, hb⟩ := List.nodup_cons.mp hnd
  have hne : a ≠ b := fun heq => ha (heq ▸ List.mem_cons_self)
  refine ⟨?_, ?_⟩
  · rw [Function.update_of_ne hne, Function.update_self]
  · exact (hl.2.2.update (fun hmem => ha (List.mem_cons_of_mem b hmem)) _).update (List.nodup_cons.mp hb).1 _

theorem Laid.set_last (hl : Laid h e (l ++ [(a, v)])) (hnd : (addrs (l ++ [(a, v)])).Nodup) (w : α) (e' : Option Nat) :
    Laid (Function.update h a (some ⟨w, e'⟩)) e' (l ++ [(a, w)]) := by
  have hsplit := laid_append.mp hl
  have hnot : a ∉ addrs l := by
    rw [addrs, List.map_append] at hnd
    exact fun hmem => (List.nodup_append.mp hnd).2.2 a hmem a List.mem_cons_self rfl
  exact laid_append.mpr ⟨hsplit.1.update hnot _, Function.update_self a _ h, trivial⟩

theorem modify_eq {c : Node α} (hc : h a = some c) (f : Node α → Node α) :
    modify h a f = some (Function.update h a (some (f c))) := by
  rw [modify, hc, Option.map_some]

/-- Taking out some of the cells behind the first. -/
theorem Laid.unlinkNext (hl : Laid h e ((a, v) :: l)) (hnd : (addrs ((a, v) :: l)).Nodup) {n : Nat}
    (hn : n ≤ l.length) :
    ∃ h', ListHeap.unlinkNext a n h = some h' ∧ Laid h' e ((a, v) :: l.drop n) ∧
      ∀ x ∉ addrs ((a, v) :: l), h' x = h x := by
  induction n generalizing h l with
  | zero => exact ⟨h, rfl, hl, fun _ _ => rfl⟩
  | succ n ih =>
    cases l with
    | nil => exact absurd hn (Nat.not_succ_le_zero n)
    | cons y l =>
      obtain ⟨b, w⟩ := y
      have hnd' : (addrs ((a, v) :: l)).Nodup :=
        hnd.sublist (List.Sublist.cons_cons a (List.sublist_cons_self b _))
      obtain ⟨h', hrun, hlaid, hkeep⟩ := ih (hl.unlink hnd) hnd' (Nat.le_of_succ_le_succ hn)
      refine ⟨h', ?_, hlaid, fun x hx => ?_⟩
      · simp only [ListHeap.unlinkNext, hl.1, hl.2.1, first_cons, Option.bind_some]
        exact hrun
      · have hxa : x ≠ a := fun heq => hx (heq ▸ List.mem_cons_self)
        have hxb : x ≠ b := fun heq => hx (heq ▸ List.mem_cons_of_mem _ List.mem_cons_self)
        have hx' : x ∉ addrs ((a, v) :: l) := fun hmem =>
          hx ((List.Sublist.cons_cons a (List.sublist_cons_self b _)).subset hmem)
        rw [hkeep x hx', Function.update_of_ne hxb, Function.update_of_ne hxa]

end ListHeap
