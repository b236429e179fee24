import Rv32emu.JitEmit
import Mathlib.Data.Finset.Card

/-!
# The key set of the translator

The table of `utils.c` slot by slot, where `JitEmit` has the keys of each bucket.

* `SetT`, `SetT.reset`, `SetT.add`, `SetT.has` : as in the source; reading the slot behind a bucket is `none`;
* `SetCall`, `answers` : the calls, and what a set answers;
* `KeyFits` : a call that the table answers as a set does; `SetT.Represents`, `SetT.call_fits`, `SetT.call_not_fits`;
* `isSet_iff` : a sequence of calls is answered so exactly if each of them fits;
* `has_codeSet`, `add_codeSet` : the model of `JitEmit` says the same.
-/

namespace Rv32emu

variable {bld : JitBuild}

/-! ## The functions -/

def keyBits (bld : JitBuild) : Nat := if bld.system then 64 else 32

abbrev HashKey (bld : JitBuild) := BitVec (keyBits bld)

theorem setHash_lt (key : BitVec 64) : setHash bld key < setSize := by
  unfold setHash setSize
  split_ifs
  · rw [BitVec.toNat_and]
    exact Nat.lt_succ_of_le Nat.and_le_right
  · rw [BitVec.toNat_and]
    exact Nat.lt_succ_of_le Nat.and_le_right

def setIndex (key : HashKey bld) : Fin setSize := ⟨setHash bld (key.setWidth 64), setHash_lt _⟩

abbrev SetT (bld : JitBuild) := Fin setSize → Vector (HashKey bld) setSlotsSize

/-- How the loop over the slots of a bucket ends. -/
inductive SlotScan
  | found
  | empty (count : Nat)
  deriving DecidableEq, Repr

/-- The loop of both functions, from the slot `count` on. Behind the last slot it would read one more. -/
def scanSlots (key : HashKey bld) : List (HashKey bld) → Nat → Option SlotScan
  | [], _ => none
  | slot :: rest, count =>
    if slot = 0 then some (.empty count) else if slot = key then some .found else scanSlots key rest (count + 1)

namespace SetT

def reset : SetT bld := fun _ => Vector.replicate setSlotsSize 0

def add (t : SetT bld) (key : HashKey bld) : Option (SetT bld × Bool) := do
  let index := setIndex key
  match ← scanSlots key (t index).toList 0 with
  | .found => return (t, false)
  | .empty count => return (Function.update t index ((t index).setIfInBounds count key), true)

/-- `set_has`. -/
def has (t : SetT bld) (key : HashKey bld) : Option Bool := do
  match ← scanSlots key (t (setIndex key)).toList 0 with
  | .found => return true
  | .empty _ => return false

end SetT

/-! ## Calls -/

inductive SetCall (bld : JitBuild)
  | add (key : HashKey bld)
  | has (key : HashKey bld)
  deriving DecidableEq, Repr

namespace SetCall

def key : SetCall bld → HashKey bld
  | add key => key
  | has key => key

def after (A : Finset (HashKey bld)) : SetCall bld → Finset (HashKey bld)
  | add key => insert key A
  | has _ => A

def answer (A : Finset (HashKey bld)) : SetCall bld → Bool
  | add key => key ∉ A
  | has key => key ∈ A

def run (t : SetT bld) : SetCall bld → Option (SetT bld × Bool)
  | add key => t.add key
  | has key => (t.has key).map fun b => (t, b)

/-- The answers of a set that holds `A` first. -/
def answers (A : Finset (HashKey bld)) : List (SetCall bld) → List Bool
  | [] => []
  | c :: rest => c.answer A :: answers (c.after A) rest

/-- The calls on the table, one after the other. -/
def runAll (t : SetT bld) : List (SetCall bld) → Option (SetT bld × List Bool)
  | [] => some (t, [])
  | c :: rest => do
    let (t, b) ← c.run t
    let (t, bs) ← runAll t rest
    return (t, b :: bs)

end SetCall

open SetCall

/-- No access leaves a bucket, and the answers are those of a set. -/
def IsSet (calls : List (SetCall bld)) : Prop := ∃ t, runAll SetT.reset calls = some (t, answers ∅ calls)

/-- The keys of `A` that have a slot in the bucket. -/
def inSlots (A : Finset (HashKey bld)) (i : Fin setSize) : Finset (HashKey bld) :=
  A.filter fun k => k ≠ 0 ∧ setIndex k = i

/-- The key is there and is not 0, or it is new and its bucket has a free slot. -/
def KeyFits (A : Finset (HashKey bld)) (key : HashKey bld) : Prop :=
  if key ∈ A then key ≠ 0 else (inSlots A (setIndex key)).card < setSlotsSize

def AllFit (A : Finset (HashKey bld)) : List (SetCall bld) → Prop
  | [] => True
  | c :: rest => KeyFits A c.key ∧ AllFit (c.after A) rest

/-! ## One scan -/

section Scan

variable {key : HashKey bld} {l rest : List (HashKey bld)}

theorem scanSlots_of_mem (hzero : 0 ∉ l) (hkey : key ∈ l) (count : Nat) :
    scanSlots key (l ++ rest) count = some .found := by
  induction l generalizing count with
  | nil => exact absurd hkey List.not_mem_nil
  | cons x l ih =>
    have hx : x ≠ 0 := fun h => hzero (h ▸ List.mem_cons_self)
    rw [List.cons_append, scanSlots, if_neg hx]
    by_cases heq : x = key
    · rw [if_pos heq]
    · rw [if_neg heq]
      exact ih (fun h => hzero (List.mem_cons_of_mem x h)) ((List.mem_cons.mp hkey).resolve_left (Ne.symm heq)) _

theorem scanSlots_of_not_mem (hzero : 0 ∉ l) (hkey : key ∉ l) (count : Nat) :
    scanSlots key (l ++ rest) count = scanSlots key rest (count + l.length) := by
  induction l generalizing count with
  | nil => rfl
  | cons x l ih =>
    have hx : x ≠ 0 := fun h => hzero (h ▸ List.mem_cons_self)
    have hne : x ≠ key := fun h => hkey (h ▸ List.mem_cons_self)
    rw [List.cons_append, scanSlots, if_neg hx, if_neg hne,
      ih (fun h => hzero (List.mem_cons_of_mem x h)) (fun h => hkey (List.mem_cons_of_mem x h)), List.length_cons,
      Nat.add_assoc, Nat.add_comm 1]

end Scan

/-! ## The table of a set -/

/-- A bucket: the keys of `A` that have a slot in it, and free slots. -/
structure Bucket (A : Finset (HashKey bld)) (i : Fin setSize) (slots : List (HashKey bld)) (l : List (HashKey bld)) :
    Prop where
  slots : slots = l ++ List.replicate (setSlotsSize - l.length) 0
  nodup : l.Nodup
  keys : l.toFinset = inSlots A i
  le : l.length ≤ setSlotsSize

def SetT.Represents (t : SetT bld) (A : Finset (HashKey bld)) : Prop := ∀ i, ∃ l, Bucket A i (t i).toList l

namespace Bucket

variable {A : Finset (HashKey bld)} {i : Fin setSize} {slots l : List (HashKey bld)} {key : HashKey bld}

theorem length (h : Bucket A i slots l) : l.length = (inSlots A i).card := by
  rw [← h.keys, List.toFinset_card_of_nodup h.nodup]

theorem mem_iff (h : Bucket A i slots l) : key ∈ l ↔ key ∈ A ∧ key ≠ 0 ∧ setIndex key = i := by
  rw [← List.mem_toFinset, h.keys, inSlots, Finset.mem_filter]

theorem zero_not_mem (h : Bucket A i slots l) : 0 ∉ l := fun hmem => (h.mem_iff.mp hmem).2.1 rfl

theorem scan_found (h : Bucket A (setIndex key) slots l) (hkey : key ∈ A) (hne : key ≠ 0) :
    scanSlots key slots 0 = some .found := by
  rw [h.slots]
  exact scanSlots_of_mem h.zero_not_mem (h.mem_iff.mpr ⟨hkey, hne, rfl⟩) 0

theorem scan_none (h : Bucket A (setIndex key) slots l) (hkey : ¬ (key ∈ A ∧ key ≠ 0)) :
    scanSlots key slots 0 = if l.length < setSlotsSize then some (.empty l.length) else none := by
  have hnew : key ∉ l := fun hmem => hkey ⟨(h.mem_iff.mp hmem).1, (h.mem_iff.mp hmem).2.1⟩
  rw [h.slots, scanSlots_of_not_mem h.zero_not_mem hnew, Nat.zero_add]
  split_ifs with hroom
  · obtain ⟨m, hm⟩ : ∃ m, setSlotsSize - l.length = m + 1 := Nat.exists_eq_succ_of_ne_zero (by omega)
    rw [hm, List.replicate_succ, scanSlots, if_pos rfl]
  · rw [show setSlotsSize - l.length = 0 by omega]
    rfl

/-- A new key goes into the free slot behind the others. -/
theorem insert (h : Bucket A (setIndex key) slots l) (hkey : key ∉ A) (hne : key ≠ 0)
    (hroom : l.length < setSlotsSize) :
    Bucket (insert key A) (setIndex key) (slots.set l.length key) (l ++ [key]) where
  slots := by
    obtain ⟨m, hm⟩ : ∃ m, setSlotsSize - l.length = m + 1 := Nat.exists_eq_succ_of_ne_zero (by omega)
    have hm' : setSlotsSize - (l ++ [key]).length = m := by
      rw [List.length_append, List.length_singleton]
      omega
    rw [h.slots, hm, hm', List.set_append_right _ _ (Nat.le_refl _), Nat.sub_self, List.replicate_succ,
      List.set_cons_zero,
      List.append_assoc, List.singleton_append]
  nodup := by
    rw [List.nodup_append]
    refine ⟨h.nodup, List.nodup_singleton key, fun a ha b hb heq => hkey ?_⟩
    rw [List.mem_singleton.mp hb] at heq
    exact heq ▸ (h.mem_iff.mp ha).1
  keys := by
    rw [List.toFinset_append, h.keys, inSlots, inSlots, Finset.filter_insert, if_pos (And.intro hne rfl)]
    ext k
    simp
  le := by
    rw [List.length_append, List.length_singleton]
    exact hroom

theorem insert_other (h : Bucket A i slots l) (hkey : ¬ (key ≠ 0 ∧ setIndex key = i)) :
    Bucket (Insert.insert key A) i slots l where
  slots := h.slots
  nodup := h.nodup
  keys := by rw [h.keys, inSlots, inSlots, Finset.filter_insert, if_neg hkey]
  le := h.le

/-- Writing 0 into a free slot. -/
theorem set_zero (h : Bucket A i slots l) : slots.set l.length 0 = slots := by
  rw [h.slots, List.set_append_right _ _ (Nat.le_refl _), Nat.sub_self]
  cases setSlotsSize - l.length with
  | zero => rfl
  | succ m => rfl

end Bucket

namespace SetT

variable {t : SetT bld} {A : Finset (HashKey bld)} {key : HashKey bld}

theorem reset_represents : (reset : SetT bld).Represents ∅ := fun _ =>
  ⟨[], ⟨rfl, List.nodup_nil, rfl, Nat.zero_le _⟩⟩

/-- A key of the set that is not 0. -/
theorem Represents.found (h : t.Represents A) (hkey : key ∈ A) (hne : key ≠ 0) :
    t.add key = some (t, false) ∧ t.has key = some true := by
  obtain ⟨l, hl⟩ := h (setIndex key)
  have hscan := hl.scan_found hkey hne
  constructor
  · simp only [add, hscan]
    rfl
  · simp only [has, hscan]
    rfl

/-- The table after a key that has no slot is added. -/
theorem Represents.update (h : t.Represents A) (hkey : ¬ (key ∈ A ∧ key ≠ 0)) {l : List (HashKey bld)}
    (hl : Bucket A (setIndex key) (t (setIndex key)).toList l) (hroom : l.length < setSlotsSize) :
    Represents (Function.update t (setIndex key) ((t (setIndex key)).setIfInBounds l.length key)) (insert key A) := by
  intro i
  by_cases hi : i = setIndex key
  · subst hi
    rw [Function.update_self, Vector.toList_setIfInBounds]
    by_cases hne : key = 0
    · subst hne
      rw [hl.set_zero]
      exact ⟨l, hl.insert_other fun hk => hk.1 rfl⟩
    · exact ⟨l ++ [key], hl.insert (fun hmem => hkey ⟨hmem, hne⟩) hne hroom⟩
  · obtain ⟨l', hl'⟩ := h i
    rw [Function.update_of_ne hi]
    exact ⟨l', hl'.insert_other fun hk => hi hk.2.symm⟩

/-- A key without a slot: a free slot is found if there is one. -/
theorem Represents.not_found (h : t.Represents A) (hkey : ¬ (key ∈ A ∧ key ≠ 0)) :
    if (inSlots A (setIndex key)).card < setSlotsSize then
      (∃ t', t.add key = some (t', true) ∧ t'.Represents (insert key A)) ∧ t.has key = some false
    else t.add key = none ∧ t.has key = none := by
  obtain ⟨l, hl⟩ := h (setIndex key)
  have hscan := hl.scan_none hkey
  rw [← hl.length]
  simp only [add, has, hscan]
  split_ifs with hroom
  · exact ⟨⟨_, rfl, h.update hkey hl hroom⟩, rfl⟩
  · exact ⟨rfl, rfl⟩

end SetT

/-! ## Sequences of calls -/

section Calls

variable {t : SetT bld} {A : Finset (HashKey bld)}

theorem SetT.Represents.add_fits (h : t.Represents A) {key : HashKey bld} (hfit : KeyFits A key) :
    ∃ t', t.add key = some (t', decide (key ∉ A)) ∧ t'.Represents (insert key A) := by
  unfold KeyFits at hfit
  by_cases hkey : key ∈ A
  · rw [if_pos hkey] at hfit
    rw [decide_eq_false (not_not_intro hkey), Finset.insert_eq_of_mem hkey]
    exact ⟨t, (h.found hkey hfit).1, h⟩
  · rw [if_neg hkey] at hfit
    have hnot := h.not_found fun hmem => hkey hmem.1
    rw [if_pos hfit] at hnot
    rw [decide_eq_true hkey]
    exact hnot.1

theorem SetT.Represents.has_fits (h : t.Represents A) {key : HashKey bld} (hfit : KeyFits A key) :
    t.has key = some (decide (key ∈ A)) := by
  unfold KeyFits at hfit
  by_cases hkey : key ∈ A
  · rw [if_pos hkey] at hfit
    rw [decide_eq_true hkey]
    exact (h.found hkey hfit).2
  · rw [if_neg hkey] at hfit
    have hnot := h.not_found fun hmem => hkey hmem.1
    rw [if_pos hfit] at hnot
    rw [decide_eq_false hkey]
    exact hnot.2

/-- What is left when a call does not fit: 0 is there and is not found, or the bucket is full. -/
theorem SetT.Represents.unfit (h : t.Represents A) {key : HashKey bld} (hfit : ¬ KeyFits A key) :
    (t.add key = none ∧ t.has key = none) ∨
      key ∈ A ∧ (∃ t', t.add key = some (t', true)) ∧ t.has key = some false := by
  unfold KeyFits at hfit
  by_cases hkey : key ∈ A
  · rw [if_pos hkey] at hfit
    have hnot := h.not_found fun hmem => hfit hmem.2
    split_ifs at hnot
    · obtain ⟨⟨t', hadd, -⟩, hhas⟩ := hnot
      exact .inr ⟨hkey, ⟨t', hadd⟩, hhas⟩
    · exact .inl hnot
  · rw [if_neg hkey] at hfit
    have hnot := h.not_found fun hmem => hkey hmem.1
    rw [if_neg hfit] at hnot
    exact .inl hnot

theorem SetT.Represents.call_fits (h : t.Represents A) {c : SetCall bld} (hfit : KeyFits A c.key) :
    ∃ t', c.run t = some (t', c.answer A) ∧ t'.Represents (c.after A) := by
  cases c with
  | add key => exact h.add_fits hfit
  | has key => exact ⟨t, congrArg (Option.map fun b => (t, b)) (h.has_fits hfit), h⟩

/-- A call that does not fit leaves the bucket or is answered wrongly. -/
theorem SetT.Represents.call_not_fits (h : t.Represents A) {c : SetCall bld} (hfit : ¬ KeyFits A c.key)
    {t' : SetT bld} :
    c.run t ≠ some (t', c.answer A) := by
  intro hrun
  cases c with
  | add key =>
    change ¬ KeyFits A key at hfit
    change t.add key = some (t', decide (key ∉ A)) at hrun
    rcases h.unfit hfit with ⟨hadd, -⟩ | ⟨hkey, ⟨t'', hadd⟩, -⟩
    · cases hadd.symm.trans hrun
    · rw [decide_eq_false (not_not_intro hkey)] at hrun
      cases hadd.symm.trans hrun
  | has key =>
    change ¬ KeyFits A key at hfit
    change (t.has key).map (fun b => (t, b)) = some (t', decide (key ∈ A)) at hrun
    rcases h.unfit hfit with ⟨-, hhas⟩ | ⟨hkey, -, hhas⟩
    · rw [hhas] at hrun
      cases hrun
    · rw [hhas, decide_eq_true hkey] at hrun
      cases hrun

theorem runAll_iff (h : t.Represents A) (calls : List (SetCall bld)) :
    (∃ t', runAll t calls = some (t', answers A calls)) ↔ AllFit A calls := by
  induction calls generalizing t A with
  | nil => exact iff_of_true ⟨t, rfl⟩ trivial
  | cons c rest ih =>
    by_cases hfit : KeyFits A c.key
    · obtain ⟨t₁, hrun, hrep⟩ := h.call_fits hfit
      rw [AllFit, and_iff_right hfit, ← ih hrep, runAll, hrun, answers]
      change (∃ t', ((runAll t₁ rest).bind fun q => some (q.1, c.answer A :: q.2)) = _) ↔ _
      cases runAll t₁ rest with
      | none => simp
      | some q => simp [Prod.ext_iff]
    · refine iff_of_false ?_ fun hall => hfit hall.1
      rintro ⟨t', hrun⟩
      rw [runAll, answers] at hrun
      obtain ⟨⟨t₁, b⟩, hfirst, hrest⟩ := Option.bind_eq_some_iff.mp hrun
      obtain ⟨⟨t₂, bs⟩, -, hlast⟩ := Option.bind_eq_some_iff.mp hrest
      have hb := congrArg (fun q => q.2.head?) (Option.some.inj hlast)
      simp only [List.head?_cons, Option.some.injEq] at hb
      exact h.call_not_fits hfit (hb ▸ hfirst)

end Calls

/-- **The table is a set exactly as long as** no key is looked for after 0 has been added as 0, and no new key meets
a full bucket. -/
theorem isSet_iff (calls : List (SetCall bld)) : IsSet calls ↔ AllFit ∅ calls := runAll_iff SetT.reset_represents calls

/-- The key 0 is not found after it has been added. -/
theorem not_isSet_zero : ¬ IsSet ([.add 0, .has 0] : List (SetCall {})) := by
  intro h
  have hfit : KeyFits (insert 0 ∅) (0 : HashKey {}) := ((runAll_iff SetT.reset_represents _).mp h).2.1
  rw [KeyFits, if_pos (Finset.mem_insert_self _ _)] at hfit
  exact hfit rfl

/-! ## The set of the translator -/

def SetT.codeSet (t : SetT bld) : CodeSet := fun i =>
  if h : i < setSize then ((t ⟨i, h⟩).toList.takeWhile (· ≠ 0)).map (BitVec.setWidth 64) else []

theorem setWidth_key_injective : Function.Injective (BitVec.setWidth 64 : HashKey bld → BitVec 64) := by
  intro a b h
  have hle : keyBits bld ≤ 64 := by
    unfold keyBits
    split_ifs <;> decide
  have hback := congrArg (BitVec.setWidth (keyBits bld)) h
  rwa [BitVec.setWidth_setWidth_of_le _ hle, BitVec.setWidth_setWidth_of_le _ hle, BitVec.setWidth_eq,
    BitVec.setWidth_eq] at hback

section CodeSet

variable {t : SetT bld} {A : Finset (HashKey bld)} {key : HashKey bld}

theorem Bucket.codeSet {i : Fin setSize} {l : List (HashKey bld)} (h : Bucket A i (t i).toList l) :
    t.codeSet i = l.map (BitVec.setWidth 64) := by
  have hpos : ∀ k ∈ l, decide (k ≠ 0) = true := fun k hk => decide_eq_true fun hk0 => h.zero_not_mem (hk0 ▸ hk)
  rw [SetT.codeSet, dif_pos i.isLt, h.slots, List.takeWhile_append_of_pos hpos]
  cases setSlotsSize - l.length with
  | zero => rw [List.replicate_zero, List.takeWhile_nil, List.append_nil]
  | succ m => rw [List.replicate_succ, List.takeWhile_cons_of_neg (by simp), List.append_nil]

theorem Bucket.codeSet_hash {l : List (HashKey bld)} (h : Bucket A (setIndex key) (t (setIndex key)).toList l) :
    t.codeSet (setHash bld (key.setWidth 64)) = l.map (BitVec.setWidth 64) := h.codeSet

theorem Bucket.mem_codeSet {l : List (HashKey bld)} (h : Bucket A (setIndex key) (t (setIndex key)).toList l) :
    key.setWidth 64 ∈ t.codeSet (setHash bld (key.setWidth 64)) ↔ key ∈ A ∧ key ≠ 0 := by
  rw [h.codeSet_hash, List.mem_map_of_injective setWidth_key_injective, h.mem_iff]
  simp

theorem Bucket.length_codeSet {l : List (HashKey bld)} (h : Bucket A (setIndex key) (t (setIndex key)).toList l) :
    (t.codeSet (setHash bld (key.setWidth 64))).length = l.length := by
  rw [h.codeSet_hash, List.length_map]

/-- `setHas` answers as the loop over the slots, when this stays in the bucket. -/
theorem has_codeSet (h : t.Represents A) {b : Bool} (hhas : t.has key = some b) :
    setHas bld t.codeSet (key.setWidth 64) = .ok b := by
  obtain ⟨l, hl⟩ := h (setIndex key)
  unfold setHas
  simp only
  by_cases hkey : key ∈ A ∧ key ≠ 0
  · rw [if_pos (hl.mem_codeSet.mpr hkey), ← Option.some.inj ((h.found hkey.1 hkey.2).2.symm.trans hhas)]
  · have hscan := h.not_found hkey
    rw [if_neg fun hin => hkey (hl.mem_codeSet.mp hin)]
    rw [← hl.length, ← hl.length_codeSet] at hscan
    split_ifs at hscan with hroom
    · rw [if_pos (Or.inl hroom), ← Option.some.inj (hscan.2.symm.trans hhas)]
    · cases hscan.2.symm.trans hhas

/-- The keys of the buckets after a key without a slot is written. -/
theorem codeSet_update {l : List (HashKey bld)} (hl : Bucket A (setIndex key) (t (setIndex key)).toList l)
    (hkey : ¬ (key ∈ A ∧ key ≠ 0)) (hroom : l.length < setSlotsSize) :
    SetT.codeSet (Function.update t (setIndex key) ((t (setIndex key)).setIfInBounds l.length key)) =
      if key = 0 then t.codeSet
      else Function.update t.codeSet (setIndex key) (t.codeSet (setIndex key) ++ [key.setWidth 64]) := by
  by_cases hzero : key = 0
  · subst hzero
    have hsame : (t (setIndex 0)).setIfInBounds l.length 0 = t (setIndex 0) :=
      Vector.toList_inj.mp (by rw [Vector.toList_setIfInBounds, hl.set_zero])
    rw [if_pos rfl, hsame, Function.update_eq_self]
  · rw [if_neg hzero]
    funext i
    by_cases hi : i = (setIndex key).val
    · subst hi
      have hins := hl.insert (fun hmem => hkey ⟨hmem, hzero⟩) hzero hroom
      have hself : Function.update t (setIndex key) ((t (setIndex key)).setIfInBounds l.length key) (setIndex key) =
          (t (setIndex key)).setIfInBounds l.length key := Function.update_self _ _ _
      rw [← Vector.toList_setIfInBounds, ← hself] at hins
      rw [Function.update_self, hins.codeSet, hl.codeSet, List.map_append, List.map_singleton]
    · rw [Function.update_of_ne hi]
      unfold SetT.codeSet
      split_ifs with hlt
      · have hne : (⟨i, hlt⟩ : Fin setSize) ≠ setIndex key := fun heq => hi (congrArg Fin.val heq)
        rw [Function.update_of_ne hne]
      · rfl

theorem add_codeSet (h : t.Represents A) {t' : SetT bld} {b : Bool} (hadd : t.add key = some (t', b)) :
    setAdd bld t.codeSet (key.setWidth 64) = .ok (t'.codeSet, b) := by
  obtain ⟨l, hl⟩ := h (setIndex key)
  unfold setAdd
  simp only
  by_cases hkey : key ∈ A ∧ key ≠ 0
  · cases (h.found hkey.1 hkey.2).1.symm.trans hadd
    exact if_pos (hl.mem_codeSet.mpr hkey)
  · have hscan := hl.scan_none hkey
    rw [if_neg fun hin => hkey (hl.mem_codeSet.mp hin), hl.length_codeSet]
    simp only [SetT.add, hscan] at hadd
    split_ifs at hadd with hroom
    · cases hadd
      have hzero : key.setWidth 64 = 0 ↔ key = 0 := setWidth_key_injective.eq_iff' (by simp)
      rw [codeSet_update hl hkey hroom, if_neg (Nat.not_le.mpr hroom)]
      simp only [hzero]
      split_ifs <;> rfl
    · cases hadd

end CodeSet

end Rv32emu
