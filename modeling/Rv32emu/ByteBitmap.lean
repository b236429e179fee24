import Mathlib.Data.Finset.Card
import Mathlib.Data.Finset.Range
import Mathlib.Logic.Function.Basic

/-!
# Bitmaps of bytes

Bit `i` is bit `i % 8` of byte `i / 8`.

* `test`, `set`, `clear` : one bit; `test_zero`, `test_set`, `test_clear`;
* `count` : the number of bits set below a bound; `count_set`, `count_clear`.
-/

namespace ByteBitmap

/-- The byte in which only the bit of `i` is set. -/
def mask (i : Nat) : BitVec 8 := 1#8 <<< (i % 8)

def test (m : Nat → BitVec 8) (i : Nat) : Bool := m (i / 8) &&& mask i != 0

def set (m : Nat → BitVec 8) (i : Nat) : Nat → BitVec 8 := Function.update m (i / 8) (m (i / 8) ||| mask i)

def clear (m : Nat → BitVec 8) (i : Nat) : Nat → BitVec 8 := Function.update m (i / 8) (m (i / 8) &&& ~~~mask i)

variable {m : Nat → BitVec 8} {i j n : Nat}

theorem getLsbD_mask (i k : Nat) : (mask i).getLsbD k = decide (k = i % 8) := by
  have hlt := Nat.mod_lt i (by decide : 0 < 8)
  unfold mask
  rw [BitVec.getLsbD_shiftLeft, BitVec.getLsbD_one]
  by_cases hk : k = i % 8
  · subst hk
    simp [hlt]
  · have hor : k < i % 8 ∨ i % 8 < k := Nat.lt_or_gt_of_ne hk
    rcases hor with h | h
    · simp [h, hk]
    · simp [hk]
      omega

theorem test_eq_getLsbD : test m i = (m (i / 8)).getLsbD (i % 8) := by
  have hlt := Nat.mod_lt i (by decide : 0 < 8)
  unfold test
  rw [Bool.eq_iff_iff, bne_iff_ne]
  constructor
  · intro hne
    by_contra hbit
    refine hne (BitVec.eq_of_getLsbD_eq fun k _ => ?_)
    rw [BitVec.getLsbD_and, getLsbD_mask]
    change _ = (0#8).getLsbD k
    rw [BitVec.getLsbD_zero]
    by_cases hk : k = i % 8
    · rw [hk, Bool.eq_false_iff.mpr hbit, Bool.false_and]
    · rw [decide_eq_false hk, Bool.and_false]
  · intro hbit heq
    have hget := congrArg (BitVec.getLsbD · (i % 8)) heq
    simp [getLsbD_mask, hbit] at hget

theorem test_zero : test (fun _ => 0) i = false := by
  rw [test_eq_getLsbD]
  change (0#8).getLsbD (i % 8) = false
  exact BitVec.getLsbD_zero

theorem index_eq_iff : i = j ↔ i / 8 = j / 8 ∧ i % 8 = j % 8 := by
  constructor
  · rintro rfl
    exact ⟨rfl, rfl⟩
  · omega

theorem test_set : test (set m i) j = (decide (j = i) || test m j) := by
  rw [test_eq_getLsbD, test_eq_getLsbD, set]
  by_cases hbyte : j / 8 = i / 8
  · rw [hbyte, Function.update_self, BitVec.getLsbD_or, getLsbD_mask, Bool.or_comm]
    congr 1
    exact decide_eq_decide.mpr ⟨fun h => index_eq_iff.mpr ⟨hbyte, h⟩, fun h => (index_eq_iff.mp h).2⟩
  · rw [Function.update_of_ne hbyte, decide_eq_false fun h => hbyte (index_eq_iff.mp h).1, Bool.false_or]

theorem test_clear : test (clear m i) j = (!decide (j = i) && test m j) := by
  rw [test_eq_getLsbD, test_eq_getLsbD, clear]
  by_cases hbyte : j / 8 = i / 8
  · have hlt := Nat.mod_lt j (by decide : 0 < 8)
    rw [hbyte, Function.update_self, BitVec.getLsbD_and, BitVec.getLsbD_not, getLsbD_mask, Bool.and_comm,
      decide_eq_true hlt, Bool.true_and]
    congr 2
    exact decide_eq_decide.mpr ⟨fun h => index_eq_iff.mpr ⟨hbyte, h⟩, fun h => (index_eq_iff.mp h).2⟩
  · rw [Function.update_of_ne hbyte, decide_eq_false fun h => hbyte (index_eq_iff.mp h).1, Bool.not_false,
      Bool.true_and]

/-- The number of bits below `n` that are set. -/
def count (m : Nat → BitVec 8) (n : Nat) : Nat := ((Finset.range n).filter fun i => test m i = true).card

theorem count_zero : count (fun _ => 0) n = 0 := by
  refine Finset.card_eq_zero.mpr (Finset.filter_eq_empty_iff.mpr fun i _ => ?_)
  rw [test_zero]
  exact Bool.false_ne_true

theorem count_set (hi : i < n) (hclear : test m i = false) : count (set m i) n = count m n + 1 := by
  have hnew : i ∉ (Finset.range n).filter fun j => test m j = true := fun h => by
    rw [(Finset.mem_filter.mp h).2] at hclear
    cases hclear
  rw [count, count, ← Finset.card_insert_of_notMem hnew]
  congr 1
  ext j
  rw [Finset.mem_insert, Finset.mem_filter, Finset.mem_filter, test_set, Bool.or_eq_true, decide_eq_true_iff]
  constructor
  · rintro ⟨hj, rfl | hbit⟩
    · exact .inl rfl
    · exact .inr ⟨hj, hbit⟩
  · rintro (rfl | ⟨hj, hbit⟩)
    · exact ⟨Finset.mem_range.mpr hi, .inl rfl⟩
    · exact ⟨hj, .inr hbit⟩

theorem count_clear (hi : i < n) (hset : test m i = true) : count (clear m i) n + 1 = count m n := by
  have hcleared : test (clear m i) i = false := by
    rw [test_clear, decide_eq_true rfl]
    rfl
  rw [← count_set hi hcleared, count, count]
  congr 1
  ext j
  rw [Finset.mem_filter, Finset.mem_filter, test_set, test_clear]
  by_cases hj : j = i
  · rw [hj, hset, decide_eq_true rfl]
    simp
  · rw [decide_eq_false hj]
    simp

end ByteBitmap
