import Mathlib.Order.Defs.Unbundled

/-!
# Relations that a stateful computation stays within

For computations in `StateT σ Option`, where a run may fail. `Within R m` says that every run of `m`
that succeeds relates its start to its end by `R`; for a preorder `R` the property passes through the
operations of the monad.

* `bind_eq_some` : a successful run of a `do` block, taken apart;
* `Within.pure`, `Within.bind`, `Within.modify`, `Within.get`, `Within.failure`, `Within.ite`;
* `Returns P m` : every run of `m` that succeeds returns a value with `P`.

`Blind tw m` says that a change `tw i` of the start of a run of `m` shows only as such a change of its
end: the run fails or not as before, and with the same result. It passes through the monad as well.
-/

namespace StateRel

variable {σ α β : Type} {R : σ → σ → Prop}

/-- The runs of the two parts of a `do` block. -/
theorem bind_eq_some {x : StateT σ Option α} {f : α → StateT σ Option β} {s : σ} {r : β × σ} :
    (x >>= f) s = some r ↔ ∃ a s', x s = some (a, s') ∧ f a s' = some r := by
  show (x s).bind (fun p => f p.1 p.2) = some r ↔ _
  constructor
  · intro h
    obtain ⟨⟨a, s'⟩, hx, hf⟩ := Option.bind_eq_some_iff.mp h
    exact ⟨a, s', hx, hf⟩
  · rintro ⟨a, s', hx, hf⟩
    rw [hx]
    exact hf

/-- Every successful run of `m` stays within `R`. -/
def Within (R : σ → σ → Prop) (m : StateT σ Option α) : Prop :=
  ∀ s a s', m s = some (a, s') → R s s'

namespace Within

theorem failure : Within R (failure : StateT σ Option α) := fun _ _ _ h => nomatch h

theorem modify {f : σ → σ} (h : ∀ s, R s (f s)) : Within R (modify f : StateT σ Option PUnit) := by
  intro s a s' hrun
  obtain ⟨rfl, rfl⟩ := Prod.mk.inj (Option.some.inj hrun)
  exact h s

theorem ite {c : Prop} [Decidable c] {x y : StateT σ Option α} (hx : Within R x) (hy : Within R y) :
    Within R (if c then x else y) := by
  split
  · exact hx
  · exact hy

section Preorder

variable [IsPreorder σ R]

theorem pure (a : α) : Within R (pure a : StateT σ Option α) := by
  intro s a' s' hrun
  obtain ⟨-, rfl⟩ := Prod.mk.inj (Option.some.inj hrun)
  exact Std.Refl.refl s

theorem get : Within R (get : StateT σ Option σ) := by
  intro s a s' hrun
  obtain ⟨-, rfl⟩ := Prod.mk.inj (Option.some.inj hrun)
  exact Std.Refl.refl s

theorem bind {x : StateT σ Option α} {f : α → StateT σ Option β} (hx : Within R x)
    (hf : ∀ a, Within R (f a)) : Within R (x >>= f) := by
  intro s b s' hrun
  obtain ⟨a, s1, hx1, hf1⟩ := bind_eq_some.mp hrun
  exact IsTrans.trans s s1 s' (hx s a s1 hx1) (hf a s1 b s' hf1)

/-- The state is read and the rest of the block goes on from it. -/
theorem get_bind {f : σ → StateT σ Option β} (hf : ∀ s, Within R (f s)) :
    Within R (MonadState.get >>= f) := bind get hf

end Preorder

end Within

/-! ## What is returned -/

/-- Every successful run of `m` returns a value with `P`. -/
def Returns (P : α → Prop) (m : StateT σ Option α) : Prop :=
  ∀ s a s', m s = some (a, s') → P a

namespace Returns

variable {P : α → Prop} {Q : β → Prop}

theorem pure {a : α} (h : P a) : Returns P (pure a : StateT σ Option α) := by
  intro s a' s' hrun
  obtain ⟨rfl, -⟩ := Prod.mk.inj (Option.some.inj hrun)
  exact h

theorem bind {x : StateT σ Option α} {f : α → StateT σ Option β} (hx : Returns P x)
    (hf : ∀ a, P a → Returns Q (f a)) : Returns Q (x >>= f) := by
  intro s b s' hrun
  obtain ⟨a, s1, hx1, hf1⟩ := bind_eq_some.mp hrun
  exact hf a (hx s a s1 hx1) s1 b s' hf1

/-- Nothing is needed of what the first part returns. -/
theorem after {x : StateT σ Option α} {f : α → StateT σ Option β} (hf : ∀ a, Returns Q (f a)) :
    Returns Q (x >>= f) := by
  intro s b s' hrun
  obtain ⟨a, s1, -, hf1⟩ := bind_eq_some.mp hrun
  exact hf a s1 b s' hf1

theorem ite {c : Prop} [Decidable c] {x y : StateT σ Option α} (hx : Returns P x) (hy : Returns P y) :
    Returns P (if c then x else y) := by
  split
  · exact hx
  · exact hy

end Returns

/-! ## Changes that are not seen -/

/-- A run of `m` from a changed state is the run from the state itself with its end changed. -/
def Blind {ι : Type} (tw : ι → σ → σ) (m : StateT σ Option α) : Prop :=
  ∀ i s, ∃ j, m (tw i s) = (m s).map (Prod.map id (tw j))

namespace Blind

variable {ι : Type} {tw : ι → σ → σ}

theorem pure (a : α) : Blind tw (pure a : StateT σ Option α) := fun i _ => ⟨i, rfl⟩

theorem failure : Blind tw (failure : StateT σ Option α) := fun i _ => ⟨i, rfl⟩

theorem modify {f : σ → σ} (h : ∀ i s, ∃ j, f (tw i s) = tw j (f s)) :
    Blind tw (modify f : StateT σ Option PUnit) := by
  intro i s
  obtain ⟨j, hj⟩ := h i s
  exact ⟨j, congrArg (fun s => some (PUnit.unit, s)) hj⟩

theorem ite {c : Prop} [Decidable c] {x y : StateT σ Option α} (hx : Blind tw x) (hy : Blind tw y) :
    Blind tw (if c then x else y) := by
  split
  · exact hx
  · exact hy

theorem bind {x : StateT σ Option α} {f : α → StateT σ Option β} (hx : Blind tw x)
    (hf : ∀ a, Blind tw (f a)) : Blind tw (x >>= f) := by
  intro i s
  obtain ⟨j, hj⟩ := hx i s
  have hrun (s : σ) : (x >>= f) s = (x s).bind fun p => f p.1 p.2 := rfl
  rw [hrun, hrun, hj]
  cases x s with
  | none => exact ⟨i, rfl⟩
  | some p =>
    obtain ⟨k, hk⟩ := hf p.1 j p.2
    exact ⟨k, hk⟩

/-- The state is read, and what is read does not depend on the change. -/
theorem get_bind {f : σ → StateT σ Option β} (heq : ∀ i s, f (tw i s) = f s) (hf : ∀ s, Blind tw (f s)) :
    Blind tw (get >>= f) := by
  intro i s
  obtain ⟨j, hj⟩ := hf s i s
  refine ⟨j, ?_⟩
  show f (tw i s) (tw i s) = _
  rw [heq, hj]
  rfl

end Blind

/-- Under `view` a change of the start of a run does not show at its end. -/
def Hidden {ι τ : Type} (tw : ι → σ → σ) (view : σ → τ) (m : StateT σ Option α) : Prop :=
  ∀ i s, (m (tw i s)).map (fun r => view r.2) = (m s).map fun r => view r.2

namespace Hidden

variable {ι τ : Type} {tw : ι → σ → σ} {view : σ → τ}

theorem of_blind (hview : ∀ i s, view (tw i s) = view s) {m : StateT σ Option α} (h : Blind tw m) :
    Hidden tw view m := by
  intro i s
  obtain ⟨j, hj⟩ := h i s
  rw [hj]
  cases m s with
  | none => rfl
  | some r => exact congrArg some (hview j r.2)

theorem bind {x : StateT σ Option α} {f : α → StateT σ Option β} (hx : Blind tw x)
    (hf : ∀ a, Hidden tw view (f a)) : Hidden tw view (x >>= f) := by
  intro i s
  obtain ⟨j, hj⟩ := hx i s
  have hrun (s : σ) : (x >>= f) s = (x s).bind fun p => f p.1 p.2 := rfl
  rw [hrun, hrun, hj]
  cases x s with
  | none => rfl
  | some p => exact hf p.1 j p.2

theorem get_bind {f : σ → StateT σ Option β} (heq : ∀ i s, f (tw i s) = f s)
    (hf : ∀ s, Hidden tw view (f s)) : Hidden tw view (get >>= f) := by
  intro i s
  show ((f (tw i s)) (tw i s)).map _ = ((f s) s).map _
  rw [heq]
  exact hf s i s

end Hidden

end StateRel
