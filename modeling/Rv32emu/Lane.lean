import Mathlib.Order.Basic
import Mathlib.Tactic.SplitIfs

/-!
# Lanes of a bit vector

* `lane k x j` : the `j`-th of the fields of `k` bits that `x` is made of; `eq_of_lane`;
* `setLane x j v` : the field `j` replaced by `v`; `lane_setLane`;
* `lane_not`, `lane_zero`, `lane_setWidth`.
-/

namespace Lane

variable {k w : Nat}

def lane (k : Nat) (x : BitVec w) (j : Nat) : BitVec k := x.extractLsb' (k * j) k

def setLane (x : BitVec w) (j : Nat) (v : BitVec k) : BitVec w :=
  x &&& ~~~((BitVec.allOnes k).setWidth w <<< (k * j)) ||| v.setWidth w <<< (k * j)

theorem getLsbD_lane (x : BitVec w) (j b : Nat) : (lane k x j).getLsbD b = (decide (b < k) && x.getLsbD (k * j + b)) :=
  BitVec.getLsbD_extractLsb' _ _ _ _

theorem lane_apart {i j b : Nat} (hne : i ≠ j) (hb : b < k) : k * i + b < k * j ∨ k * j + k ≤ k * i + b := by
  rcases Nat.lt_or_gt_of_ne hne with hlt | hgt
  · have hle : k * (i + 1) ≤ k * j := Nat.mul_le_mul_left k hlt
    rw [Nat.mul_succ] at hle
    omega
  · have hle : k * (j + 1) ≤ k * i := Nat.mul_le_mul_left k hgt
    rw [Nat.mul_succ] at hle
    omega

theorem lane_setLane_self (x : BitVec w) {j : Nat} (v : BitVec k) (hj : k * j + k ≤ w) :
    lane k (setLane x j v) j = v := by
  apply BitVec.eq_of_getLsbD_eq
  intro b hb
  have hlt : k * j + b < w := by omega
  rw [getLsbD_lane, setLane, BitVec.getLsbD_or, BitVec.getLsbD_and, BitVec.getLsbD_not, BitVec.getLsbD_shiftLeft,
    BitVec.getLsbD_shiftLeft, BitVec.getLsbD_setWidth, BitVec.getLsbD_setWidth, Nat.add_sub_cancel_left]
  simp [hb, hlt, show b < w by omega, show ¬ k * j + b < k * j by omega]

theorem lane_setLane_ne (x : BitVec w) {i j : Nat} (v : BitVec k) (hne : i ≠ j) :
    lane k (setLane x j v) i = lane k x i := by
  apply BitVec.eq_of_getLsbD_eq
  intro b hb
  rw [getLsbD_lane, getLsbD_lane, setLane, BitVec.getLsbD_or, BitVec.getLsbD_and, BitVec.getLsbD_not,
    BitVec.getLsbD_shiftLeft, BitVec.getLsbD_shiftLeft, BitVec.getLsbD_setWidth, BitVec.getLsbD_setWidth]
  by_cases hw : k * i + b < w
  · rcases lane_apart hne hb with hlt | hge
    · simp [hlt, hw]
    · have hout : k ≤ k * i + b - k * j := by omega
      simp [BitVec.getLsbD_of_ge, hout, hw]
  · simp [hw, BitVec.getLsbD_of_ge x _ (Nat.le_of_not_lt hw)]

theorem lane_setLane (x : BitVec w) {i j : Nat} (v : BitVec k) (hj : k * j + k ≤ w) :
    lane k (setLane x j v) i = if i = j then v else lane k x i := by
  split_ifs with h
  · rw [h, lane_setLane_self x v hj]
  · exact lane_setLane_ne x v h

theorem lane_not (x : BitVec w) {j : Nat} (hj : k * j + k ≤ w) : lane k (~~~x) j = ~~~lane k x j := by
  apply BitVec.eq_of_getLsbD_eq
  intro b hb
  rw [getLsbD_lane, BitVec.getLsbD_not, BitVec.getLsbD_not, getLsbD_lane]
  simp [hb, show k * j + b < w by omega]

@[simp] theorem lane_zero (j : Nat) : lane k (0 : BitVec w) j = 0 := BitVec.extractLsb'_zero

/-- A vector that is zero from the bit `n` on. -/
theorem lane_setWidth {n : Nat} (x : BitVec n) (j : Nat) (hj : k * j + k ≤ w) :
    lane k (x.setWidth w) j = lane k x j := by
  apply BitVec.eq_of_getLsbD_eq
  intro b hb
  rw [getLsbD_lane, getLsbD_lane, BitVec.getLsbD_setWidth]
  simp [show k * j + b < w by omega]

theorem eq_of_lane {n : Nat} {x y : BitVec w} (hw : w = k * n) (h : ∀ j < n, lane k x j = lane k y j) : x = y := by
  apply BitVec.eq_of_getLsbD_eq
  intro b hb
  have hk : 0 < k := by
    rcases Nat.eq_zero_or_pos k with rfl | hpos
    · simp at hw
      omega
    · exact hpos
  have hj : b / k < n := by
    rw [Nat.div_lt_iff_lt_mul hk, Nat.mul_comm]
    omega
  have hbit := congrArg (BitVec.getLsbD · (b % k)) (h _ hj)
  simp only [getLsbD_lane, Nat.div_add_mod, Nat.mod_lt b hk, decide_true, Bool.true_and] at hbit
  exact hbit

end Lane
