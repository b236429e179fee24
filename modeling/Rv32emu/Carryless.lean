import Mathlib.Algebra.Field.ZMod
import Mathlib.Algebra.Polynomial.Coeff

/-!
# Carry-less multiplication

* `poly` : a bit vector as a polynomial over `ZMod 2`; `poly_xor`, `poly_shiftLeft`;
* `xorFold` : the loop that XORs a term for each `i` where a condition holds; `xorFold_map`, `poly_xorFold`;
* `product` : the product by shifting and XORing; `poly_product`.
-/

namespace Carryless

open Polynomial

variable {v w n m : Nat}

/-! ## Bit vectors as polynomials -/

def bitCoeff (b : Bool) : ZMod 2 := if b then 1 else 0

theorem bitCoeff_xor (a b : Bool) : bitCoeff (a ^^ b) = bitCoeff a + bitCoeff b := by
  cases a <;> cases b <;> decide

noncomputable def poly (x : BitVec w) : (ZMod 2)[X] := ∑ i ∈ Finset.range w, monomial i (bitCoeff (x.getLsbD i))

theorem coeff_poly (x : BitVec w) (i : Nat) : (poly x).coeff i = bitCoeff (x.getLsbD i) := by
  unfold poly
  rw [finsetSum_coeff]
  simp only [coeff_monomial]
  rw [Finset.sum_ite_eq' (Finset.range w) i]
  split_ifs with hi
  · rfl
  · rw [Finset.mem_range] at hi
    rw [BitVec.getLsbD_of_ge x i (Nat.le_of_not_lt hi)]
    rfl

theorem poly_zero : poly (0 : BitVec w) = 0 := by
  ext i
  rw [coeff_poly, BitVec.ofNat_eq_ofNat, BitVec.getLsbD_zero, coeff_zero]
  rfl

theorem poly_xor (x y : BitVec w) : poly (x ^^^ y) = poly x + poly y := by
  ext i
  rw [coeff_poly, BitVec.getLsbD_xor, bitCoeff_xor, coeff_add, coeff_poly, coeff_poly]

theorem poly_shiftLeft (x : BitVec w) {s : Nat} (h : w + s ≤ n) : poly (x.setWidth n <<< s) = X ^ s * poly x := by
  ext i
  rw [coeff_poly, coeff_X_pow_mul', BitVec.getLsbD_shiftLeft]
  by_cases hs : s ≤ i
  · rw [if_pos hs, coeff_poly, BitVec.getLsbD_setWidth]
    by_cases hi : i < n
    · simp [hi, Nat.not_lt.mpr hs, show i - s < n by omega]
    · rw [BitVec.getLsbD_of_ge x (i - s) (by omega)]
      simp [hi]
  · rw [if_neg hs]
    simp [Nat.lt_of_not_le hs, bitCoeff]

/-! ## The loop -/

/-- The terms of the list for which `c` holds, XORed. -/
def xorFold (c : Nat → Bool) (f : Nat → BitVec n) (l : List Nat) : BitVec n :=
  l.foldl (fun out i => if c i then out ^^^ f i else out) 0

variable {c : Nat → Bool} {f : Nat → BitVec n} {l : List Nat}

theorem xorFold_concat (i : Nat) :
    xorFold c f (l ++ [i]) = xorFold c f l ^^^ if c i then f i else 0 := by
  unfold xorFold
  rw [List.foldl_append, List.foldl_cons, List.foldl_nil]
  split_ifs
  · rfl
  · exact (BitVec.xor_zero).symm

theorem xorFold_map {g : BitVec n → BitVec m} (hzero : g 0 = 0) (hxor : ∀ a b, g (a ^^^ b) = g a ^^^ g b) :
    g (xorFold c f l) = xorFold c (fun i => g (f i)) l := by
  induction l using List.reverseRecOn with
  | nil => exact hzero
  | append_singleton l i ih =>
    rw [xorFold_concat, xorFold_concat, hxor, ih]
    split_ifs
    · rfl
    · rw [hzero]

theorem xorFold_congr {f' : Nat → BitVec n} (h : ∀ i ∈ l, f i = f' i) : xorFold c f l = xorFold c f' l := by
  induction l using List.reverseRecOn with
  | nil => rfl
  | append_singleton l i ih =>
    rw [xorFold_concat, xorFold_concat, ih fun j hj => h j (List.mem_append_left _ hj), h i (by simp)]

theorem xorFold_cons_zero {i : Nat} (h : f i = 0) : xorFold c f (i :: l) = xorFold c f l := by
  unfold xorFold
  rw [List.foldl_cons, h]
  split_ifs
  · exact congrArg (List.foldl _ · l) BitVec.xor_zero
  · rfl

theorem poly_xorFold : poly (xorFold c f l) = (l.map fun i => if c i then poly (f i) else 0).sum := by
  induction l using List.reverseRecOn with
  | nil => exact poly_zero
  | append_singleton l i ih =>
    rw [xorFold_concat, poly_xor, ih, List.map_append, List.sum_append, List.map_singleton, List.sum_singleton]
    split_ifs
    · rfl
    · rw [poly_zero]

/-! ## The product -/

/-- `x` shifted by each set bit of `y`, XORed. -/
def product (n : Nat) (x : BitVec v) (y : BitVec w) : BitVec n :=
  xorFold y.getLsbD (fun i => x.setWidth n <<< i) (List.range w)

/-- **It is the product of the polynomials**, in a width that holds it. -/
theorem poly_product (x : BitVec v) (y : BitVec w) (h : v + w ≤ n) : poly (product n x y) = poly x * poly y := by
  have hterm : ∀ i ∈ Finset.range w, (if y.getLsbD i = true then poly (x.setWidth n <<< i) else 0) =
      poly x * monomial i (bitCoeff (y.getLsbD i)) := by
    intro i hi
    have hlt := Finset.mem_range.mp hi
    cases y.getLsbD i with
    | true =>
      rw [if_pos rfl, poly_shiftLeft x (by omega), X_pow_eq_monomial, mul_comm]
      rfl
    | false =>
      rw [if_neg Bool.false_ne_true]
      simp [bitCoeff]
  rw [product, poly_xorFold, ← List.sum_toFinset _ (List.nodup_range), List.toFinset_range, poly.eq_def y,
    Finset.mul_sum]
  exact Finset.sum_congr rfl hterm

end Carryless
