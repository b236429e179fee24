import Mathlib.Data.List.Induction

/-!
# Overlays

Partial writes on a memory, one after the other.

* `overlay`, `layers` : the memory behind one write and behind a list of them; `layers_last`, `layers_of_none`;
* `spilled`, `Spills` : the same writes, where each also sets what it should not have touched to one value;
  `spilled_eq_iff` : when that does no harm.
-/

namespace Overlay

variable {α β ι : Type}

def overlay (w : α → Option β) (m : α → β) : α → β := fun a => (w a).getD (m a)

section Layers

variable (write : ι → α → Option β)

/-- The writes of the list, the first one first. -/
def layers (l : List ι) (m : α → β) : α → β := l.foldl (fun m i => overlay (write i) m) m

variable {write} {l : List ι} {i : ι} {m : α → β} {a : α} {b : β}

theorem layers_concat : layers write (l ++ [i]) m = overlay (write i) (layers write l m) := by
  unfold layers
  rw [List.foldl_append]
  rfl

theorem overlay_of_none {w : α → Option β} (h : w a = none) : overlay w m a = m a := by
  unfold overlay
  rw [h]
  rfl

theorem overlay_of_some {w : α → Option β} (h : w a = some b) : overlay w m a = b := by
  unfold overlay
  rw [h]
  rfl

theorem layers_of_none (h : ∀ i ∈ l, write i a = none) : layers write l m a = m a := by
  induction l generalizing m with
  | nil => rfl
  | cons i l ih =>
    have hrest : layers write l (overlay (write i) m) a = overlay (write i) m a :=
      ih fun j hj => h j (List.mem_cons_of_mem i hj)
    exact hrest.trans (overlay_of_none (h i List.mem_cons_self))

theorem layers_last {pre post : List ι} (hi : write i a = some b) (hpost : ∀ j ∈ post, write j a = none) :
    layers write (pre ++ i :: post) m a = b := by
  have hsplit : layers write (pre ++ i :: post) m = layers write post (overlay (write i) (layers write pre m)) := by
    unfold layers
    rw [List.foldl_append, List.foldl_cons]
  rw [hsplit, layers_of_none hpost, overlay_of_some hi]

theorem exists_last (h : ∃ i ∈ l, write i a ≠ none) :
    ∃ pre i post, l = pre ++ i :: post ∧ write i a ≠ none ∧ ∀ j ∈ post, write j a = none := by
  induction l with
  | nil =>
    obtain ⟨i, hi, -⟩ := h
    exact nomatch hi
  | cons j l ih =>
    by_cases hl : ∃ i ∈ l, write i a ≠ none
    · obtain ⟨pre, i, post, rfl, hi, hpost⟩ := ih hl
      exact ⟨j :: pre, i, post, rfl, hi, hpost⟩
    · have hnone : ∀ i ∈ l, write i a = none := fun i hi => by_contra fun hne => hl ⟨i, hi, hne⟩
      obtain ⟨i, hi, hne⟩ := h
      rcases List.mem_cons.mp hi with rfl | hmem
      · exact ⟨[], i, l, rfl, hne, hnone⟩
      · exact absurd (hnone i hmem) hne

end Layers

/-! ## Writes that reach too far -/

section Spill

variable (write : ι → α → Option β) (spill : ι → α → Prop) (z : β)

/-- The writes, each followed by the `z`s of its spill. -/
def spilled [∀ i a, Decidable (spill i a)] (l : List ι) (m : α → β) : α → β :=
  l.foldl (fun m i a => if spill i a then z else overlay (write i) m a) m

def Spills (l : List ι) (a : α) : Prop :=
  ∃ pre i post, l = pre ++ i :: post ∧ spill i a ∧ ∀ j ∈ post, write j a = none

variable {write spill z} {l : List ι} {i : ι} {m : α → β} {a : α}

theorem spills_concat : Spills write spill (l ++ [i]) a ↔ spill i a ∨ write i a = none ∧ Spills write spill l a := by
  constructor
  · rintro ⟨pre, j, post, hl, hj, hpost⟩
    rcases List.eq_nil_or_concat post with rfl | ⟨post, k, rfl⟩
    · obtain ⟨-, hk⟩ := List.append_inj' hl rfl
      rw [List.singleton_inj] at hk
      exact .inl (hk ▸ hj)
    · rw [List.concat_eq_append] at hl hpost
      rw [← List.cons_append, ← List.append_assoc] at hl
      obtain ⟨rfl, hk⟩ := List.append_inj' hl rfl
      rw [List.singleton_inj] at hk
      subst hk
      exact .inr ⟨hpost i (by simp), pre, j, post, rfl, hj, fun j hj => hpost j (List.mem_append_left _ hj)⟩
  · rintro (hi | ⟨hi, pre, j, post, rfl, hj, hpost⟩)
    · exact ⟨l, i, [], rfl, hi, fun j hj => nomatch hj⟩
    · refine ⟨pre, j, post ++ [i], by simp, hj, fun k hk => ?_⟩
      rcases List.mem_append.mp hk with hk | hk
      · exact hpost k hk
      · exact List.mem_singleton.mp hk ▸ hi

variable [∀ i a, Decidable (spill i a)]

theorem spilled_concat : spilled write spill z (l ++ [i]) m a =
    if spill i a then z else overlay (write i) (spilled write spill z l m) a := by
  unfold spilled
  rw [List.foldl_append]
  rfl

/-- A spill that stays decides; elsewhere only the writes count. -/
theorem spilled_cases (l : List ι) (m : α → β) (a : α) :
    (Spills write spill l a → spilled write spill z l m a = z) ∧
      (¬ Spills write spill l a → spilled write spill z l m a = layers write l m a) := by
  induction l using List.reverseRecOn with
  | nil =>
    refine ⟨?_, fun _ => rfl⟩
    rintro ⟨pre, i, post, hl, -⟩
    exact absurd hl (by simp)
  | append_singleton l i ih =>
    rw [spills_concat, spilled_concat, layers_concat]
    by_cases hspill : spill i a
    · exact ⟨fun _ => if_pos hspill, fun h => absurd (.inl hspill) h⟩
    · rw [if_neg hspill]
      cases hwrite : write i a with
      | none =>
        rw [overlay_of_none hwrite, overlay_of_none hwrite]
        exact ⟨fun h => ih.1 (h.resolve_left hspill).2, fun h => ih.2 fun hl => h (.inr ⟨rfl, hl⟩)⟩
      | some b =>
        rw [overlay_of_some hwrite, overlay_of_some hwrite]
        exact ⟨fun h => absurd (h.resolve_left hspill).1 (by simp), fun _ => rfl⟩

/-- **Spills do no harm** exactly where they leave what should be there. -/
theorem spilled_eq_iff : spilled write spill z l m a = layers write l m a ↔
    (Spills write spill l a → layers write l m a = z) := by
  by_cases h : Spills write spill l a
  · rw [(spilled_cases l m a).1 h]
    exact ⟨fun heq _ => heq.symm, fun heq => (heq h).symm⟩
  · exact ⟨fun _ hs => absurd hs h, fun _ => (spilled_cases l m a).2 h⟩

end Spill

end Overlay
