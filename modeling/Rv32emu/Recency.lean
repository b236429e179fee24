import Mathlib.Data.List.Basic

/-!
# When something last happened

A log of events, newest first: `ago f` events have been logged after the last one of kind `f`, and they are
`since f`. A kind happened after another one if that one is not among the events since (`ago_lt_iff`).
-/

namespace Rv32emu

variable {α : Type} {f g : α → Bool} {l : List α} {a : α}

/-- How many events ago the last one of a kind was, newest first. -/
def ago (f : α → Bool) (l : List α) : Nat := l.findIdx f

def since (f : α → Bool) (l : List α) : List α := l.takeWhile fun a => !f a

theorem ago_cons_of_pos (h : f a = true) : ago f (a :: l) = 0 := by
  rw [ago, List.findIdx_cons, h]
  rfl

theorem ago_cons_of_neg (h : f a = false) : ago f (a :: l) = ago f l + 1 := by
  rw [ago, List.findIdx_cons, h]
  rfl

theorem since_cons_of_pos (h : f a = true) : since f (a :: l) = [] :=
  List.takeWhile_cons_of_neg (by simp [h])

theorem since_cons_of_neg (h : f a = false) : since f (a :: l) = a :: since f l :=
  List.takeWhile_cons_of_pos (by simp [h])

theorem ago_mono (h : ∀ a ∈ l, f a = true → g a = true) : ago g l ≤ ago f l := by
  induction l with
  | nil => exact Nat.le_refl _
  | cons a l ih =>
    cases hg : g a with
    | true =>
      rw [ago_cons_of_pos hg]
      exact Nat.zero_le _
    | false =>
      have hf : f a = false := by
        by_contra hf
        rw [h a List.mem_cons_self (by simpa using hf)] at hg
        cases hg
      rw [ago_cons_of_neg hg, ago_cons_of_neg hf]
      exact Nat.succ_le_succ (ih fun b hb => h b (List.mem_cons_of_mem a hb))

/-- The one kind happened later than the other, which has not happened since. -/
theorem ago_lt_iff (hdisj : ∀ a ∈ l, f a = true → g a = false) (hf : ∃ a ∈ l, f a = true) :
    ago f l < ago g l ↔ ∀ a ∈ since f l, g a = false := by
  induction l with
  | nil =>
    obtain ⟨a, ha, -⟩ := hf
    cases ha
  | cons a l ih =>
    cases hfa : f a with
    | true =>
      rw [ago_cons_of_pos hfa, ago_cons_of_neg (hdisj a List.mem_cons_self hfa), since_cons_of_pos hfa]
      exact ⟨fun _ b hb => (nomatch hb), fun _ => Nat.succ_pos _⟩
    | false =>
      have hf' : ∃ b ∈ l, f b = true := by
        obtain ⟨b, hb, hfb⟩ := hf
        obtain rfl | hb := List.mem_cons.mp hb
        · rw [hfa] at hfb
          cases hfb
        · exact ⟨b, hb, hfb⟩
      rw [ago_cons_of_neg hfa, since_cons_of_neg hfa, List.forall_mem_cons]
      cases hga : g a with
      | true =>
        rw [ago_cons_of_pos hga]
        exact ⟨fun h => absurd h (Nat.not_lt_zero _), fun h => by cases h.1⟩
      | false =>
        rw [ago_cons_of_neg hga, Nat.succ_lt_succ_iff, ih (fun b hb => hdisj b (List.mem_cons_of_mem a hb)) hf']
        exact (and_iff_right rfl).symm

end Rv32emu
