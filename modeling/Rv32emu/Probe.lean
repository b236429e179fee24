import Mathlib.Data.Fintype.Card
import Mathlib.Logic.Function.Iterate

/-!
# Open addressing

A table of slots that is searched along a probe sequence: a cursor names a slot, and the sequence goes
from a cursor to the next one. Entries are never removed one by one.

* `findLoop`, `freeLoop` : the two loops, for an entry and for an empty slot. `none` is a loop that has
  not ended within the given number of rounds;
* `Reaches` : the slots a search starting at a cursor comes to before it meets an empty one;
* `Stored` : every entry is reached from the home of its key; `stored_update`;
* `findLoop_update` : what a search finds after an entry has been put into the slot `freeLoop` gave;
* `occupied` : how many slots are taken; `exists_free`.
-/

namespace Probe

variable {ι σ κ α : Type*} (slot : ι → σ) (next : ι → ι)

/-- The search for an entry with property `p`. -/
def findLoop (map : σ → Option α) (p : α → Bool) : Nat → ι → Option (Option α)
  | 0, _ => none
  | n + 1, c =>
    match map (slot c) with
    | none => some none
    | some a => if p a then some (some a) else findLoop map p n (next c)

def freeLoop (map : σ → Option α) : Nat → ι → Option σ
  | 0, _ => none
  | n + 1, c =>
    match map (slot c) with
    | none => some (slot c)
    | some _ => freeLoop map n (next c)

/-- The slot `x` comes up in a search from a cursor before an empty slot does. -/
inductive Reaches (map : σ → Option α) : ι → σ → Prop
  | here (c : ι) : Reaches map c (slot c)
  | later {c : ι} {x : σ} {a : α} (htaken : map (slot c) = some a) (hrest : Reaches map (next c) x) :
      Reaches map c x

variable {slot next} {map : σ → Option α} {p : α → Bool} {n : Nat} {c : ι}

/-! ## The searches -/

theorem findLoop_some {a : α} (h : findLoop slot next map p n c = some (some a)) :
    p a = true ∧ ∃ x, map x = some a := by
  induction n generalizing c with
  | zero => cases h
  | succ n ih =>
    unfold findLoop at h
    split at h
    · cases h
    · rename_i b hb
      split_ifs at h with hp
      · cases h
        exact ⟨hp, slot c, hb⟩
      · exact ih h

/-- A search that ends at an empty slot has passed every slot it reaches. -/
theorem findLoop_none (h : findLoop slot next map p n c = some none) {x : σ} {a : α}
    (hreach : Reaches slot next map c x) (hx : map x = some a) : p a = false := by
  induction n generalizing c with
  | zero => cases h
  | succ n ih =>
    unfold findLoop at h
    split at h
    · rename_i hempty
      cases hreach with
      | here => rw [hempty] at hx; cases hx
      | later htaken _ => rw [hempty] at htaken; cases htaken
    · rename_i b hb
      split_ifs at h with hp
      · cases h
      · cases hreach with
        | here =>
          rw [hb] at hx
          cases hx
          exact Bool.eq_false_iff.mpr hp
        | later _ hrest => exact ih h hrest

/-- **A search ends if an empty slot is near enough.** -/
theorem findLoop_ends (p : α → Bool) (h : ∃ i < n, map (slot (next^[i] c)) = none) :
    ∃ r, findLoop slot next map p n c = some r := by
  induction n generalizing c with
  | zero => obtain ⟨i, hi, -⟩ := h; omega
  | succ n ih =>
    unfold findLoop
    split
    · exact ⟨none, rfl⟩
    · rename_i b hb
      split_ifs
      · exact ⟨some b, rfl⟩
      · obtain ⟨i, hi, hempty⟩ := h
        cases i with
        | zero => rw [Function.iterate_zero, id, hb] at hempty; cases hempty
        | succ i => exact ih ⟨i, by omega, by rwa [Function.iterate_succ_apply] at hempty⟩

theorem freeLoop_ends (h : ∃ i < n, map (slot (next^[i] c)) = none) :
    ∃ x, freeLoop slot next map n c = some x := by
  induction n generalizing c with
  | zero => obtain ⟨i, hi, -⟩ := h; omega
  | succ n ih =>
    unfold freeLoop
    split
    · exact ⟨slot c, rfl⟩
    · rename_i b hb
      obtain ⟨i, hi, hempty⟩ := h
      cases i with
      | zero => rw [Function.iterate_zero, id, hb] at hempty; cases hempty
      | succ i => exact ih ⟨i, by omega, by rwa [Function.iterate_succ_apply] at hempty⟩

theorem freeLoop_some {x : σ} (h : freeLoop slot next map n c = some x) :
    map x = none ∧ Reaches slot next map c x := by
  induction n generalizing c with
  | zero => cases h
  | succ n ih =>
    unfold freeLoop at h
    split at h
    · rename_i hempty
      cases h
      exact ⟨hempty, .here c⟩
    · rename_i b hb
      exact ⟨(ih h).1, .later hb (ih h).2⟩

/-! ## Insertion -/

section Insertion

variable (home : κ → ι) (key : α → κ)

/-- Every entry is found by a search from the home of its key. -/
def Stored (slot : ι → σ) (next : ι → ι) (map : σ → Option α) : Prop :=
  ∀ x a, map x = some a → Reaches slot next map (home (key a)) x

variable {home key}

theorem stored_empty : Stored home key slot next fun _ : σ => (none : Option α) :=
  fun _ _ h => nomatch h

variable [DecidableEq σ] {x : σ} {a : α}

theorem Reaches.update {y : σ} (h : Reaches slot next map c y) (hx : map x = none) :
    Reaches slot next (Function.update map x (some a)) c y := by
  induction h with
  | here c => exact .here c
  | @later c y b htaken _ ih =>
    have hne : slot c ≠ x := fun he => by rw [he, hx] at htaken; cases htaken
    exact .later (by rw [Function.update_of_ne hne]; exact htaken) ih

theorem findLoop_update_of_some {b : α} (h : findLoop slot next map p n c = some (some b))
    (hx : map x = none) : findLoop slot next (Function.update map x (some a)) p n c = some (some b) := by
  induction n generalizing c with
  | zero => cases h
  | succ n ih =>
    unfold findLoop at h ⊢
    split at h
    · cases h
    · rename_i d hd
      have hne : slot c ≠ x := fun he => by rw [he, hx] at hd; cases hd
      simp only [Function.update_of_ne hne, hd]
      split_ifs at h ⊢ with hp
      · exact h
      · exact ih h

theorem stored_update (h : Stored home key slot next map) (hx : map x = none)
    (hreach : Reaches slot next map (home (key a)) x) :
    Stored home key slot next (Function.update map x (some a)) := by
  intro y b hy
  by_cases hxy : y = x
  · subst hxy
    rw [Function.update_self] at hy
    cases hy
    exact hreach.update hx
  · rw [Function.update_of_ne hxy] at hy
    exact (h y b hy).update hx

variable [DecidableEq κ]

/-- An entry is found only after those with its key that were there before. -/
theorem findLoop_update (h : Stored home key slot next map) (hx : map x = none)
    (hreach : Reaches slot next map (home (key a)) x) {k : κ} {r : Option α}
    (hold : findLoop slot next map (fun b => key b = k) n (home k) = some r)
    (hends : ∃ r', findLoop slot next (Function.update map x (some a)) (fun b => key b = k) n (home k) =
      some r') :
    findLoop slot next (Function.update map x (some a)) (fun b => key b = k) n (home k) =
      some (r.or (if key a = k then some a else none)) := by
  cases r with
  | some b => rw [Option.some_or]; exact findLoop_update_of_some hold hx
  | none =>
    have hnone : ∀ y b, map y = some b → key b ≠ k := fun y b hy hk => by
      subst hk
      simpa using findLoop_none hold (h y b hy) hy
    have hnew : ∀ y b, Function.update map x (some a) y = some b → key b = k → b = a := by
      intro y b hy hk
      by_cases hxy : y = x
      · subst hxy
        rw [Function.update_self] at hy
        exact (Option.some.inj hy).symm
      · rw [Function.update_of_ne hxy] at hy
        exact absurd hk (hnone y b hy)
    obtain ⟨r', hr'⟩ := hends
    rw [hr', Option.none_or]
    cases r' with
    | some b =>
      obtain ⟨hk, y, hy⟩ := findLoop_some hr'
      have hk' : key b = k := of_decide_eq_true hk
      obtain rfl := hnew y b hy hk'
      rw [if_pos hk']
    | none =>
      rw [if_neg]
      rintro rfl
      simpa using findLoop_none hr' (hreach.update hx) (Function.update_self x (some a) map)

end Insertion

/-! ## Occupancy -/

section Occupancy

variable [Fintype σ]

def occupied (map : σ → Option α) : Nat := (Finset.univ.filter fun x => (map x).isSome).card

theorem occupied_empty : occupied (fun _ : σ => (none : Option α)) = 0 := by
  simp [occupied]

theorem exists_free (h : occupied map < Fintype.card σ) : ∃ x, map x = none := by
  by_contra hfull
  simp only [not_exists, ← ne_eq, Option.ne_none_iff_isSome] at hfull
  have hall : (Finset.univ.filter fun x => (map x).isSome) = Finset.univ :=
    Finset.filter_true_of_mem fun x _ => hfull x
  rw [occupied, hall, Finset.card_univ] at h
  exact lt_irrefl _ h

theorem occupied_update [DecidableEq σ] {x : σ} (a : α) (hx : map x = none) :
    occupied (Function.update map x (some a)) = occupied map + 1 := by
  have hset : (Finset.univ.filter fun y => (Function.update map x (some a) y).isSome) =
      insert x (Finset.univ.filter fun y => (map y).isSome) := by
    ext y
    by_cases hy : y = x
    · simp [hy]
    · simp [hy]
  rw [occupied, hset, Finset.card_insert_of_notMem (by simp [hx]), occupied]

end Occupancy

end Probe
