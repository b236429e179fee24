import Mathlib.Algebra.GroupWithZero.Nat
import Mathlib.Data.List.Basic
import Mathlib.Logic.Relation

/-!
# Lexical path names

Paths over an alphabet with a separator and a dot, as lists of elements.

* `push` : an element meets the ones before it, which are kept with the last one first;
* `normal` : the elements pushed one after the other and joined again;
* `Canonical` : what the pushed elements look like; `normal_normal`, `normal_getLast`;
* `Rule`, `Equivalent` : the simplifications of a list of elements, and the equivalence they generate;
* `normal_equivalent`, `normal_shortest` : `normal` is the shortest path of its class.
-/

namespace LexPath

variable {α : Type}

/-! ## The normal form -/

section Elements

variable (sep dot : α)

/-- The elements with separators between them. -/
def body (root : Bool) (es : List (List α)) : List α := (if root then [sep] else []) ++ [sep].intercalate es

/-- An element that is neither empty nor `.` or `..`. -/
structure IsName (e : List α) : Prop where
  ne_nil : e ≠ []
  ne_dot : e ≠ [dot]
  ne_up : e ≠ [dot, dot]
  no_sep : sep ∉ e

/-- Names on top of leading `..`, which a rooted path does not have. -/
inductive Canonical (root : Bool) : List (List α) → Prop
  | nil : Canonical root []
  | up {st : List (List α)} (h : Canonical root st) (hroot : root = false) (htop : ∀ e ∈ st.head?, e = [dot, dot]) :
      Canonical root ([dot, dot] :: st)
  | name {e : List α} {st : List (List α)} (he : IsName sep dot e) (h : Canonical root st) : Canonical root (e :: st)

end Elements

section Normal

variable [DecidableEq α] (sep dot : α)

def isRoot (p : List α) : Bool := p.head? = some sep

/-- An element is put on those before it: an empty one and `.` are dropped, `..` takes a normal one away, and at the
root it is dropped. -/
def push (root : Bool) (st : List (List α)) (e : List α) : List (List α) :=
  if e = [] ∨ e = [dot] then st
  else if e = [dot, dot] then
    match st with
    | [] => if root then [] else [e]
    | top :: rest => if top = [dot, dot] then e :: st else rest
  else e :: st

/-- The elements that remain, the last one first. -/
def remaining (p : List α) : List (List α) := (p.splitOn sep).foldl (push dot (isRoot sep p)) []

/-- The path of the elements; `.` if there is nothing. -/
def join (root : Bool) (es : List (List α)) : List α := if root = false ∧ es = [] then [dot] else body sep root es

def normal (p : List α) : List α := join sep dot (isRoot sep p) (remaining sep dot p).reverse

end Normal

variable {sep dot : α} {root : Bool} {st : List (List α)} {e : List α}

/-! ## Elements -/

namespace Canonical

theorem tail (h : Canonical sep dot root (e :: st)) : Canonical sep dot root st := by
  cases h with
  | up h hroot htop => exact h
  | name he h => exact h

theorem ne_nil (h : Canonical sep dot root st) : ∀ e ∈ st, e ≠ [] := by
  induction h with
  | nil => exact fun e he => nomatch he
  | up h hroot htop ih =>
    rintro e (_ | ⟨_, hmem⟩)
    · exact List.cons_ne_nil _ _
    · exact ih e hmem
  | name he h ih =>
    rintro e (_ | ⟨_, hmem⟩)
    · exact he.ne_nil
    · exact ih e hmem

theorem no_sep (hdot : sep ≠ dot) (h : Canonical sep dot root st) : ∀ e ∈ st, sep ∉ e := by
  induction h with
  | nil => exact fun e he => nomatch he
  | up h hroot htop ih =>
    rintro e (_ | ⟨_, hmem⟩)
    · simp [hdot]
    · exact ih e hmem
  | name he h ih =>
    rintro e (_ | ⟨_, hmem⟩)
    · exact he.no_sep
    · exact ih e hmem

end Canonical

/-! ## Joining -/

theorem intercalate_concat {es : List (List α)} (hne : es ≠ []) (e : List α) :
    [sep].intercalate (es ++ [e]) = [sep].intercalate es ++ sep :: e := by
  induction es with
  | nil => exact absurd rfl hne
  | cons d es ih =>
    cases es with
    | nil =>
      rw [List.singleton_append, List.intercalate_cons_cons, List.intercalate_singleton, List.intercalate_singleton,
        List.append_assoc, List.singleton_append]
    | cons d' es =>
      rw [List.cons_append, List.intercalate_cons_of_ne_nil (by simp), ih (List.cons_ne_nil _ _),
        List.intercalate_cons_of_ne_nil (List.cons_ne_nil _ _), List.append_assoc, List.append_assoc, List.append_assoc]

theorem body_nil : body sep root [] = if root then [sep] else [] := List.append_nil _

theorem body_single (e : List α) : body sep root [e] = body sep root [] ++ e := by
  unfold body
  rw [List.intercalate_singleton, List.intercalate_nil, List.append_nil]

theorem body_concat {es : List (List α)} (hne : es ≠ []) (e : List α) :
    body sep root (es ++ [e]) = body sep root es ++ sep :: e := by
  unfold body
  rw [intercalate_concat hne, List.append_assoc]

theorem mem_intercalate {es : List (List α)} {a : α} (ha : a ∈ [sep].intercalate es) : a = sep ∨ ∃ e ∈ es, a ∈ e := by
  induction es with
  | nil => exact nomatch ha
  | cons e es ih =>
    cases es with
    | nil =>
      rw [List.intercalate_singleton] at ha
      exact .inr ⟨e, List.mem_cons_self, ha⟩
    | cons e' es =>
      rw [List.intercalate_cons_cons, List.mem_append, List.mem_append, List.mem_singleton] at ha
      rcases ha with (ha | hsep) | ha
      · exact .inr ⟨e, List.mem_cons_self, ha⟩
      · exact .inl hsep
      · exact (ih ha).imp_right fun ⟨d, hd, had⟩ => ⟨d, List.mem_cons_of_mem e hd, had⟩

theorem mem_intercalate_of_mem {es : List (List α)} {a : α} (he : e ∈ es) (ha : a ∈ e) : a ∈ [sep].intercalate es := by
  induction es with
  | nil => exact nomatch he
  | cons d es ih =>
    cases es with
    | nil =>
      rw [List.intercalate_singleton, ← List.mem_singleton.mp he]
      exact ha
    | cons d' es =>
      rw [List.intercalate_cons_cons, List.mem_append, List.mem_append]
      rcases List.mem_cons.mp he with rfl | he
      · exact .inl (.inl ha)
      · exact .inr (ih he)

theorem reverse_cons_append (e : List α) (st es : List (List α)) : (e :: st).reverse ++ es = st.reverse ++ e :: es := by
  rw [List.reverse_cons, List.append_assoc, List.singleton_append]

/-- The length of the elements, each with a separator. -/
def weight (es : List (List α)) : Nat := (es.map fun e => e.length + 1).sum

theorem weight_cons (e : List α) (es : List (List α)) : weight (e :: es) = e.length + 1 + weight es := List.sum_cons

theorem weight_reverse (es : List (List α)) : weight es.reverse = weight es := by
  unfold weight
  rw [List.map_reverse, List.sum_reverse]

theorem length_intercalate {es : List (List α)} (hne : es ≠ []) :
    ([sep].intercalate es).length + 1 = weight es := by
  induction es with
  | nil => exact absurd rfl hne
  | cons e es ih =>
    cases es with
    | nil => simp [weight]
    | cons e' es =>
      change _ = e.length + 1 + weight (e' :: es)
      rw [List.intercalate_cons_of_ne_nil (List.cons_ne_nil _ _), ← ih (List.cons_ne_nil _ _), List.length_append,
        List.length_append, List.length_singleton]
      omega

theorem Canonical.intercalate_ne_nil (h : Canonical sep dot root st) (hne : st ≠ []) :
    [sep].intercalate st.reverse ≠ [] := by
  obtain ⟨e, es, hes⟩ := List.exists_cons_of_ne_nil fun hrev => hne (List.reverse_eq_nil_iff.mp hrev)
  have hmem : e ∈ st := List.mem_reverse.mp (hes ▸ List.mem_cons_self)
  obtain ⟨a, d, rfl⟩ := List.exists_cons_of_ne_nil (h.ne_nil e hmem)
  rw [hes, List.intercalate_cons_cons_left]
  exact List.cons_ne_nil _ _

theorem Canonical.getLast_intercalate (hdot : sep ≠ dot) (h : Canonical sep dot root st) (hne : st ≠ []) :
    ([sep].intercalate st.reverse).getLast? ≠ some sep := by
  cases st with
  | nil => exact absurd rfl hne
  | cons e st =>
    have hsep : sep ∉ e := h.no_sep hdot e List.mem_cons_self
    have hlast : ([sep].intercalate (e :: st).reverse).getLast? = e.getLast? := by
      rw [List.reverse_cons]
      by_cases hst : st.reverse = []
      · rw [hst, List.nil_append, List.intercalate_singleton]
      · obtain ⟨a, d, rfl⟩ := List.exists_cons_of_ne_nil (h.ne_nil e List.mem_cons_self)
        rw [intercalate_concat hst, List.getLast?_append_cons, List.getLast?_cons_cons]
    rw [hlast]
    exact fun hmem => hsep (List.mem_of_getLast? hmem)

/-! ## Pushing -/

variable [DecidableEq α]

theorem push_nil : push dot root st [] = st := if_pos (.inl rfl)

theorem push_dot : push dot root st [dot] = st := if_pos (.inr rfl)

theorem push_name (he : IsName sep dot e) : push dot root st e = e :: st := by
  unfold push
  rw [if_neg (not_or.mpr ⟨he.ne_nil, he.ne_dot⟩), if_neg he.ne_up]

theorem push_up : push dot root st [dot, dot] =
    match st with
    | [] => if root then [] else [[dot, dot]]
    | top :: rest => if top = [dot, dot] then [dot, dot] :: st else rest := by
  unfold push
  rw [if_neg (by simp), if_pos rfl]

theorem push_up_name (he : IsName sep dot e) : push dot root (e :: st) [dot, dot] = st := by
  rw [push_up]
  exact if_neg he.ne_up

theorem push_up_stays (hroot : root = false) (htop : ∀ e ∈ st.head?, e = [dot, dot]) :
    push dot root st [dot, dot] = [dot, dot] :: st := by
  rw [push_up]
  cases st with
  | nil => exact if_neg (by simp [hroot])
  | cons top rest => exact if_pos (htop top rfl)

namespace Canonical

theorem push_head (h : Canonical sep dot root (e :: st)) : push dot root st e = e :: st := by
  cases h with
  | up h hroot htop => exact push_up_stays hroot htop
  | name he h => exact push_name he

theorem push (h : Canonical sep dot root st) (hsep : sep ∉ e) : Canonical sep dot root (push dot root st e) := by
  by_cases hnil : e = []
  · rw [hnil, push_nil]
    exact h
  by_cases hone : e = [dot]
  · rw [hone, push_dot]
    exact h
  by_cases hup : e = [dot, dot]
  · subst hup
    cases h with
    | nil =>
      rw [push_up]
      cases root with
      | true => exact .nil
      | false => exact .up .nil rfl fun e he => nomatch he
    | @up st h hroot htop =>
      have htop' : ∀ e ∈ ([dot, dot] :: st).head?, e = [dot, dot] := by simp
      rw [push_up_stays hroot htop']
      exact .up (.up h hroot htop) hroot htop'
    | name he h =>
      rw [push_up_name he]
      exact h
  · have he : IsName sep dot e := ⟨hnil, hone, hup, hsep⟩
    rw [push_name he]
    exact .name he h

theorem foldl {es : List (List α)} (h : Canonical sep dot root st) (hsep : ∀ e ∈ es, sep ∉ e) :
    Canonical sep dot root (es.foldl (LexPath.push dot root) st) := by
  induction es generalizing st with
  | nil => exact h
  | cons e es ih =>
    exact ih (h.push (hsep e List.mem_cons_self)) fun e' he' => hsep e' (List.mem_cons_of_mem e he')

/-- The elements of the form are pushed back as they are. -/
theorem foldl_reverse (h : Canonical sep dot root st) : st.reverse.foldl (LexPath.push dot root) [] = st := by
  rw [List.foldl_reverse]
  induction st with
  | nil => rfl
  | cons e st ih => rw [List.foldr_cons, ih h.tail, h.push_head]

end Canonical

/-! ## Splitting -/

theorem not_mem_of_mem_splitOn (p : List α) : ∀ e ∈ p.splitOn sep, sep ∉ e := by
  induction p with
  | nil => simp
  | cons a p ih =>
    rw [List.splitOn_cons_eq_if_modifyHead]
    split_ifs with ha
    · rintro e (_ | ⟨_, hmem⟩)
      · exact List.not_mem_nil
      · exact ih e hmem
    · cases hsplit : p.splitOn sep with
      | nil => exact absurd hsplit (List.splitOn_ne_nil sep p)
      | cons d es =>
        rw [hsplit] at ih
        rintro e (_ | ⟨_, hmem⟩)
        · rintro (_ | ⟨_, hmem⟩)
          · exact ha (BEq.rfl)
          · exact ih d List.mem_cons_self hmem
        · exact ih e (List.mem_cons_of_mem d hmem)

theorem splitOn_sep (p : List α) : (sep :: p).splitOn sep = [] :: p.splitOn sep :=
  List.splitOn_append_cons_self_of_not_mem List.not_mem_nil p

theorem foldl_element {tail : List α} (hsep : sep ∉ e) (htail : ∀ a ∈ tail.head?, a = sep) :
    ((e ++ tail).splitOn sep).foldl (push dot root) st =
      (tail.splitOn sep).foldl (push dot root) (push dot root st e) := by
  cases tail with
  | nil =>
    rw [List.append_nil, List.splitOn_eq_singleton hsep, List.splitOn_nil, List.foldl_cons, List.foldl_cons, push_nil]
  | cons a tail =>
    rw [htail a rfl, List.splitOn_append_cons_self_of_not_mem hsep, splitOn_sep, List.foldl_cons, List.foldl_cons,
      push_nil]

theorem canonical_remaining (p : List α) : Canonical sep dot (isRoot sep p) (remaining sep dot p) :=
  Canonical.nil.foldl (not_mem_of_mem_splitOn p)

theorem Canonical.foldl_intercalate (hdot : sep ≠ dot) (h : Canonical sep dot root st) :
    (([sep].intercalate st.reverse).splitOn sep).foldl (LexPath.push dot root) [] = st := by
  cases st with
  | nil =>
    rw [List.reverse_nil, List.intercalate_nil, List.splitOn_nil, List.foldl_cons, push_nil]
    rfl
  | cons e st =>
    rw [List.splitOn_intercalate sep _ (by simp)]
    · exact h.foldl_reverse
    · exact fun d hd => h.no_sep hdot d (List.mem_reverse.mp hd)

theorem isRoot_iff {p : List α} : isRoot sep p = true ↔ ∃ t, p = sep :: t := by
  unfold isRoot
  rw [decide_eq_true_eq]
  cases p with
  | nil => simp
  | cons a p => simp

/-- A relative path of the form begins with an element. -/
theorem Canonical.isRoot_intercalate (hdot : sep ≠ dot) (h : Canonical sep dot root st) :
    isRoot sep ([sep].intercalate st.reverse) = false := by
  rw [Bool.eq_false_iff, Ne, isRoot_iff]
  rintro ⟨t, ht⟩
  cases hrev : st.reverse with
  | nil =>
    rw [hrev] at ht
    cases ht
  | cons e es =>
    have hmem : e ∈ st := List.mem_reverse.mp (hrev ▸ List.mem_cons_self)
    have hbegin : ∃ t', [sep].intercalate (e :: es) = e ++ t' := by
      cases es with
      | nil => exact ⟨[], by simp⟩
      | cons e' es => exact ⟨_, by rw [List.intercalate_cons_cons, List.append_assoc]⟩
    obtain ⟨t', ht'⟩ := hbegin
    rw [hrev, ht'] at ht
    cases e with
    | nil => exact h.ne_nil [] hmem rfl
    | cons a e => exact h.no_sep hdot (a :: e) hmem ((List.cons.inj ht).1 ▸ List.mem_cons_self)

/-! ## The normal form again -/

theorem normal_root {p : List α} (hroot : isRoot sep p = true) :
    normal sep dot p = sep :: [sep].intercalate (remaining sep dot p).reverse := by
  unfold normal join body
  rw [hroot, if_neg (by simp)]
  rfl

theorem normal_empty {p : List α} (hroot : isRoot sep p = false) (hnil : remaining sep dot p = []) :
    normal sep dot p = [dot] := by
  unfold normal join
  rw [hroot, hnil]
  exact if_pos ⟨rfl, rfl⟩

theorem normal_relative {p : List α} (hroot : isRoot sep p = false) (hne : remaining sep dot p ≠ []) :
    normal sep dot p = [sep].intercalate (remaining sep dot p).reverse := by
  unfold normal join body
  rw [hroot, if_neg fun h => hne (List.reverse_eq_nil_iff.mp h.2)]
  rfl

theorem isRoot_normal (hdot : sep ≠ dot) (p : List α) : isRoot sep (normal sep dot p) = isRoot sep p := by
  cases hroot : isRoot sep p with
  | true =>
    rw [normal_root hroot]
    exact isRoot_iff.mpr ⟨_, rfl⟩
  | false =>
    by_cases hnil : remaining sep dot p = []
    · rw [normal_empty hroot hnil, Bool.eq_false_iff, Ne, isRoot_iff]
      rintro ⟨t, ht⟩
      exact hdot (List.cons.inj ht).1.symm
    · rw [normal_relative hroot hnil]
      exact (canonical_remaining p).isRoot_intercalate hdot

theorem remaining_normal (hdot : sep ≠ dot) (p : List α) :
    remaining sep dot (normal sep dot p) = remaining sep dot p := by
  have hcanonical : Canonical sep dot (isRoot sep p) (remaining sep dot p) := canonical_remaining p
  rw [remaining, isRoot_normal hdot]
  cases hroot : isRoot sep p with
  | true =>
    rw [hroot] at hcanonical
    rw [normal_root hroot, splitOn_sep, List.foldl_cons, push_nil]
    exact hcanonical.foldl_intercalate hdot
  | false =>
    rw [hroot] at hcanonical
    by_cases hnil : remaining sep dot p = []
    · rw [normal_empty hroot hnil, List.splitOn_eq_singleton (by simp [hdot]), List.foldl_cons, push_dot, hnil]
      rfl
    · rw [normal_relative hroot hnil]
      exact hcanonical.foldl_intercalate hdot

/-- **Normalizing twice is normalizing once.** -/
theorem normal_normal (hdot : sep ≠ dot) (p : List α) : normal sep dot (normal sep dot p) = normal sep dot p := by
  rw [normal, remaining_normal hdot, isRoot_normal hdot]
  rfl

/-- **Only the root ends with a separator.** -/
theorem normal_getLast (hdot : sep ≠ dot) {p : List α} (h : (normal sep dot p).getLast? = some sep) :
    normal sep dot p = [sep] := by
  have hcanonical : Canonical sep dot (isRoot sep p) (remaining sep dot p) := canonical_remaining p
  cases hroot : isRoot sep p with
  | true =>
    rw [normal_root hroot] at h ⊢
    by_cases hnil : remaining sep dot p = []
    · rw [hnil]
      rfl
    · have hbody := hcanonical.getLast_intercalate hdot hnil
      obtain ⟨a, t, ht⟩ := List.exists_cons_of_ne_nil
        (hcanonical.intercalate_ne_nil hnil)
      rw [ht, List.getLast?_cons_cons, ← ht] at h
      exact absurd h hbody
  | false =>
    by_cases hnil : remaining sep dot p = []
    · rw [normal_empty hroot hnil] at h
      exact absurd (Option.some.inj h).symm hdot
    · rw [normal_relative hroot hnil] at h
      exact absurd h (hcanonical.getLast_intercalate hdot hnil)

theorem normal_ne_nil (p : List α) : normal sep dot p ≠ [] := by
  cases hroot : isRoot sep p with
  | true =>
    rw [normal_root hroot]
    exact List.cons_ne_nil _ _
  | false =>
    by_cases hnil : remaining sep dot p = []
    · rw [normal_empty hroot hnil]
      exact List.cons_ne_nil _ _
    · have hcanonical : Canonical sep dot (isRoot sep p) (remaining sep dot p) := canonical_remaining p
      rw [normal_relative hroot hnil]
      exact hcanonical.intercalate_ne_nil hnil

/-! ## Lengths -/

theorem weight_push_le (root : Bool) (st : List (List α)) (e : List α) :
    weight (push dot root st e) ≤ weight st + (e.length + 1) := by
  unfold push
  by_cases hskip : e = [] ∨ e = [dot]
  · rw [if_pos hskip]
    omega
  by_cases hup : e = [dot, dot]
  · rw [if_neg hskip, if_pos hup]
    cases st with
    | nil =>
      cases root with
      | true => exact Nat.zero_le _
      | false => exact Nat.le_of_eq (Nat.add_comm _ _)
    | cons top rest =>
      simp only
      split_ifs
      · rw [weight_cons]
        omega
      · rw [weight_cons]
        omega
  · rw [if_neg hskip, if_neg hup, weight_cons]
    omega

theorem weight_foldl_le (root : Bool) (st es : List (List α)) :
    weight (es.foldl (push dot root) st) ≤ weight st + weight es := by
  induction es generalizing st with
  | nil => exact Nat.le_refl _
  | cons e es ih =>
    have hrest := ih (push dot root st e)
    have hpush : weight (push dot root st e) ≤ weight st + (e.length + 1) := weight_push_le root st e
    rw [List.foldl_cons, weight_cons]
    omega

theorem weight_splitOn (p : List α) : weight (p.splitOn sep) = p.length + 1 := by
  have hlength : ([sep].intercalate (p.splitOn sep)).length + 1 = weight (p.splitOn sep) :=
    length_intercalate (List.splitOn_ne_nil sep p)
  rw [List.intercalate_splitOn] at hlength
  exact hlength.symm

theorem normal_length_le {p : List α} (hne : p ≠ []) : (normal sep dot p).length ≤ p.length := by
  have hpos := List.length_pos_of_ne_nil hne
  by_cases hnil : remaining sep dot p = []
  · unfold normal join body
    rw [hnil]
    split_ifs
    · exact hpos
    · exact hpos
    · exact Nat.zero_le _
  · have hbody : ([sep].intercalate (remaining sep dot p).reverse).length + 1 =
        weight (remaining sep dot p).reverse := length_intercalate fun h => hnil (List.reverse_eq_nil_iff.mp h)
    rw [weight_reverse] at hbody
    cases hroot : isRoot sep p with
    | true =>
      rw [normal_root hroot, List.length_cons, hbody]
      obtain ⟨t, rfl⟩ := isRoot_iff.mp hroot
      have hle : weight ((t.splitOn sep).foldl (push dot true) []) ≤ 0 + weight (t.splitOn sep) :=
        weight_foldl_le true [] (t.splitOn sep)
      rw [weight_splitOn, Nat.zero_add] at hle
      unfold remaining
      rw [hroot, splitOn_sep, List.foldl_cons, push_nil]
      exact hle
    | false =>
      have hle : weight ((p.splitOn sep).foldl (push dot false) []) ≤ 0 + weight (p.splitOn sep) :=
        weight_foldl_le false [] (p.splitOn sep)
      rw [weight_splitOn] at hle
      rw [normal_relative hroot hnil]
      unfold remaining at hbody ⊢
      rw [hroot] at hbody ⊢
      omega

/-! ## The shortest path -/

/-- The simplifications of a list of elements. -/
inductive Rule (sep dot : α) (root : Bool) : List (List α) → List (List α) → Prop
  /-- Separators that stand together become one. -/
  | empty (u v : List (List α)) : Rule sep dot root (u ++ [] :: v) (u ++ v)
  | dot (u v : List (List α)) : Rule sep dot root (u ++ [dot] :: v) (u ++ v)
  | up (u v : List (List α)) {e : List α} (he : IsName sep dot e) :
      Rule sep dot root (u ++ e :: [dot, dot] :: v) (u ++ v)
  | top (v : List (List α)) (hroot : root = true) : Rule sep dot root ([dot, dot] :: v) v

/-- The paths begin both at the root or both not, and their elements simplify to the same. -/
structure Equivalent (sep dot : α) (p q : List α) : Prop where
  root : isRoot sep p = isRoot sep q
  elements : Relation.EqvGen (Rule sep dot (isRoot sep p)) (p.splitOn sep) (q.splitOn sep)

theorem Rule.foldl_eq {es es' : List (List α)} (h : Rule sep dot root es es') :
    es.foldl (push dot root) [] = es'.foldl (push dot root) [] := by
  cases h with
  | empty u v => rw [List.foldl_append, List.foldl_append, List.foldl_cons, push_nil]
  | dot u v => rw [List.foldl_append, List.foldl_append, List.foldl_cons, push_dot]
  | up u v he =>
    rw [List.foldl_append, List.foldl_append, List.foldl_cons, List.foldl_cons, push_name he, push_up_name he]
  | top v hroot =>
    rw [List.foldl_cons, push_up, hroot]
    rfl

theorem foldl_eq_of_eqvGen {es es' : List (List α)} (h : Relation.EqvGen (Rule sep dot root) es es') :
    es.foldl (push dot root) [] = es'.foldl (push dot root) [] := by
  induction h with
  | rel es es' h => exact h.foldl_eq
  | refl es => rfl
  | symm es es' _ ih => exact ih.symm
  | trans es es' es'' _ _ ih ih' => exact ih.trans ih'

theorem Equivalent.normal_eq {p q : List α} (h : Equivalent sep dot p q) : normal sep dot p = normal sep dot q := by
  have hremaining : remaining sep dot p = remaining sep dot q := by
    unfold remaining
    rw [← h.root]
    exact foldl_eq_of_eqvGen h.elements
  unfold normal
  rw [hremaining, h.root]

theorem eqvGen_push (h : Canonical sep dot root st) (hsep : sep ∉ e) (es : List (List α)) :
    Relation.EqvGen (Rule sep dot root) (st.reverse ++ e :: es) ((push dot root st e).reverse ++ es) := by
  by_cases hnil : e = []
  · rw [hnil, push_nil]
    exact .rel _ _ (.empty _ _)
  by_cases hone : e = [dot]
  · rw [hone, push_dot]
    exact .rel _ _ (.dot _ _)
  by_cases hup : e = [dot, dot]
  · subst hup
    cases h with
    | nil =>
      rw [push_up]
      cases root with
      | true => exact .rel _ _ (.top _ rfl)
      | false => exact .refl _
    | @up st h hroot htop =>
      rw [push_up_stays hroot (by simp), reverse_cons_append [dot, dot] ([dot, dot] :: st)]
      exact .refl _
    | @name d st hd h =>
      rw [push_up_name hd, reverse_cons_append]
      exact .rel _ _ (.up _ _ hd)
  · rw [push_name ⟨hnil, hone, hup, hsep⟩, reverse_cons_append]
    exact .refl _

theorem eqvGen_foldl {es : List (List α)} (h : Canonical sep dot root st) (hsep : ∀ e ∈ es, sep ∉ e) :
    Relation.EqvGen (Rule sep dot root) (st.reverse ++ es) (es.foldl (push dot root) st).reverse := by
  induction es generalizing st with
  | nil =>
    rw [List.append_nil]
    exact .refl _
  | cons e es ih =>
    have he := hsep e List.mem_cons_self
    exact .trans _ _ _ (eqvGen_push h he es) (ih (h.push he) fun e' he' => hsep e' (List.mem_cons_of_mem e he'))

theorem eqvGen_remaining (p : List α) :
    Relation.EqvGen (Rule sep dot (isRoot sep p)) (p.splitOn sep) (remaining sep dot p).reverse :=
  eqvGen_foldl .nil (not_mem_of_mem_splitOn p)

/-- **The normal form is equivalent to the path.** -/
theorem normal_equivalent (hdot : sep ≠ dot) (p : List α) : Equivalent sep dot p (normal sep dot p) := by
  refine ⟨(isRoot_normal hdot p).symm, ?_⟩
  have hnormal : Relation.EqvGen (Rule sep dot (isRoot sep p)) ((normal sep dot p).splitOn sep)
      (remaining sep dot p).reverse := by
    have h : Relation.EqvGen (Rule sep dot (isRoot sep (normal sep dot p))) ((normal sep dot p).splitOn sep)
        (remaining sep dot (normal sep dot p)).reverse := eqvGen_remaining (normal sep dot p)
    rwa [isRoot_normal hdot, remaining_normal hdot] at h
  exact .trans _ _ _ (eqvGen_remaining p) (.symm _ _ hnormal)

/-- **It is the shortest of the equivalent paths.** -/
theorem normal_shortest {p q : List α} (h : Equivalent sep dot p q) (hne : q ≠ []) :
    (normal sep dot p).length ≤ q.length := by
  rw [h.normal_eq]
  exact normal_length_le hne

/-- An element that adds its whole length is put on top. -/
theorem push_of_weight (h : weight st + (e.length + 1) ≤ weight (push dot root st e)) :
    push dot root st e = e :: st := by
  unfold push at h ⊢
  by_cases hskip : e = [] ∨ e = [dot]
  · rw [if_pos hskip] at h
    omega
  by_cases hup : e = [dot, dot]
  · rw [if_neg hskip, if_pos hup] at h ⊢
    cases st with
    | nil =>
      cases root with
      | true => exact absurd h (by simp [weight])
      | false => rfl
    | cons top rest =>
      simp only at h ⊢
      split_ifs at h ⊢
      · rfl
      · rw [weight_cons] at h
        omega
  · rw [if_neg hskip, if_neg hup]

theorem foldl_of_weight {es : List (List α)} (h : weight st + weight es ≤ weight (es.foldl (push dot root) st)) :
    es.foldl (push dot root) st = es.reverse ++ st := by
  induction es generalizing st with
  | nil => rfl
  | cons e es ih =>
    have hrest : weight (es.foldl (push dot root) (push dot root st e)) ≤ weight (push dot root st e) + weight es :=
      weight_foldl_le root (push dot root st e) es
    rw [List.foldl_cons, weight_cons] at h
    have hpush : push dot root st e = e :: st := push_of_weight (by omega)
    rw [hpush] at h
    rw [List.foldl_cons, hpush, reverse_cons_append]
    exact ih (by rw [weight_cons]; omega)

/-- A path that does not get shorter is in normal form. -/
theorem normal_of_length_le {p : List α} (hne : p ≠ []) (h : p.length ≤ (normal sep dot p).length) :
    normal sep dot p = p := by
  cases hroot : isRoot sep p with
  | true =>
    obtain ⟨t, rfl⟩ := isRoot_iff.mp hroot
    have hremaining : remaining sep dot (sep :: t) = (t.splitOn sep).foldl (push dot true) [] := by
      unfold remaining
      rw [hroot, splitOn_sep, List.foldl_cons, push_nil]
    rw [normal_root hroot, List.length_cons, List.length_cons] at h
    rw [normal_root hroot]
    by_cases hnil : remaining sep dot (sep :: t) = []
    · rw [hnil] at h ⊢
      rw [List.eq_nil_of_length_eq_zero (Nat.le_zero.mp (Nat.le_of_succ_le_succ h))]
      rfl
    · have hbody : ([sep].intercalate (remaining sep dot (sep :: t)).reverse).length + 1 =
          weight (remaining sep dot (sep :: t)).reverse :=
          length_intercalate fun h => hnil (List.reverse_eq_nil_iff.mp h)
      have hweight : weight (t.splitOn sep) = t.length + 1 := weight_splitOn t
      rw [weight_reverse, hremaining] at hbody
      rw [hremaining] at h ⊢
      have hle : weight ([] : List (List α)) + weight (t.splitOn sep) ≤
          weight ((t.splitOn sep).foldl (push dot true) []) := by
        rw [← hbody, hweight]
        exact Nat.le_trans (Nat.le_of_eq (Nat.zero_add _)) h
      rw [foldl_of_weight hle, List.append_nil, List.reverse_reverse, List.intercalate_splitOn]
  | false =>
    by_cases hnil : remaining sep dot p = []
    · rw [normal_empty hroot hnil] at h ⊢
      obtain ⟨a, t, rfl⟩ := List.exists_cons_of_ne_nil hne
      have ht : t = [] := List.eq_nil_of_length_eq_zero (Nat.le_zero.mp (Nat.le_of_succ_le_succ h))
      subst ht
      have ha : a ≠ sep := by
        rintro rfl
        rw [isRoot_iff.mpr ⟨[], rfl⟩] at hroot
        cases hroot
      by_contra hdot
      have hname : IsName sep dot [a] :=
        ⟨List.cons_ne_nil _ _, fun h => hdot h.symm, by simp, fun hmem => ha (List.mem_singleton.mp hmem).symm⟩
      unfold remaining at hnil
      rw [List.splitOn_eq_singleton hname.no_sep, List.foldl_cons, push_name hname] at hnil
      cases hnil
    · have hbody : ([sep].intercalate (remaining sep dot p).reverse).length + 1 =
          weight (remaining sep dot p).reverse := length_intercalate fun h => hnil (List.reverse_eq_nil_iff.mp h)
      have hweight : weight (p.splitOn sep) = p.length + 1 := weight_splitOn p
      rw [normal_relative hroot hnil] at h ⊢
      rw [weight_reverse] at hbody
      have hle : weight ([] : List (List α)) + weight (p.splitOn sep) ≤
          weight ((p.splitOn sep).foldl (push dot (isRoot sep p)) []) := by
        change _ ≤ weight (remaining sep dot p)
        rw [← hbody, hweight]
        exact Nat.le_trans (Nat.le_of_eq (Nat.zero_add _)) (Nat.succ_le_succ h)
      unfold remaining
      rw [foldl_of_weight hle, List.append_nil, List.reverse_reverse, List.intercalate_splitOn]

/-- **No other one is as short.** -/
theorem normal_unique {p q : List α} (h : Equivalent sep dot p q) (hne : q ≠ [])
    (hle : q.length ≤ (normal sep dot p).length) : q = normal sep dot p := by
  rw [h.normal_eq] at hle ⊢
  exact (normal_of_length_le hne hle).symm

/-! ## The letters of the normal form -/

theorem mem_push {d : List α} (hd : d ∈ push dot root st e) : d ∈ st ∨ d = e := by
  by_cases hskip : e = [] ∨ e = [dot]
  · unfold push at hd
    rw [if_pos hskip] at hd
    exact .inl hd
  by_cases hup : e = [dot, dot]
  · subst hup
    rw [push_up] at hd
    cases st with
    | nil =>
      cases root with
      | true => exact nomatch hd
      | false => exact .inr (List.mem_singleton.mp hd)
    | cons top rest =>
      simp only at hd
      split_ifs at hd
      · exact (List.mem_cons.mp hd).symm
      · exact .inl (List.mem_cons_of_mem top hd)
  · unfold push at hd
    rw [if_neg hskip, if_neg hup] at hd
    exact (List.mem_cons.mp hd).symm

theorem mem_foldl_push {es : List (List α)} (he : e ∈ es.foldl (push dot root) st) : e ∈ st ∨ e ∈ es := by
  induction es generalizing st with
  | nil => exact .inl he
  | cons d es ih =>
    rcases ih he with hpush | hmem
    · rcases mem_push hpush with hst | rfl
      · exact .inl hst
      · exact .inr List.mem_cons_self
    · exact .inr (List.mem_cons_of_mem d hmem)

/-- No letter is new but the separator and the dot. -/
theorem mem_normal {p : List α} {a : α} (ha : a ∈ normal sep dot p) : a = sep ∨ a = dot ∨ a ∈ p := by
  have hletters : ∀ b ∈ [sep].intercalate (remaining sep dot p).reverse, b = sep ∨ b ∈ p := by
    intro b hb
    rcases mem_intercalate hb with hsep | ⟨e, he, hbe⟩
    · exact .inl hsep
    · rcases mem_foldl_push (List.mem_reverse.mp he) with hnil | hmem
      · exact nomatch hnil
      · have hb' : b ∈ [sep].intercalate (p.splitOn sep) := mem_intercalate_of_mem hmem hbe
        rw [List.intercalate_splitOn] at hb'
        exact .inr hb'
  cases hroot : isRoot sep p with
  | true =>
    rw [normal_root hroot] at ha
    rcases List.mem_cons.mp ha with hsep | hmem
    · exact .inl hsep
    · exact (hletters a hmem).imp_right .inr
  | false =>
    by_cases hnil : remaining sep dot p = []
    · rw [normal_empty hroot hnil] at ha
      exact .inr (.inl (List.mem_singleton.mp ha))
    · rw [normal_relative hroot hnil] at ha
      exact (hletters a ha).imp_right .inr

end LexPath
