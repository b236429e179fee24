import Rv32emu.Carryless
import Rv32emu.Template

/-!
# The Zbc handlers

* `clmulLoop_eq` : the loop of the three handlers, with the bits of `rs2` as its condition;
* `clmul_product`, `clmulh_product`, `clmulr_product` : the loops are windows of one product;
* `zbc_windows` : so are the results of the handlers.
-/

namespace Rv32emu

open Carryless

/-- `(y >> i) & 1`. -/
theorem shift_and_one_ne_zero_iff (y : Word) (i : Nat) : (y >>> i) &&& 1 ≠ 0 ↔ y.getLsbD i = true := by
  have hand : (y >>> i) &&& 1 = if y.getLsbD i then 1#32 else 0#32 := by
    apply BitVec.eq_of_getLsbD_eq
    intro j hj
    rw [BitVec.getLsbD_and, BitVec.getLsbD_ushiftRight]
    by_cases hzero : j = 0
    · subst hzero
      cases y.getLsbD i <;> simp
    · cases y.getLsbD i <;> simp [hzero]
  rw [hand]
  split_ifs with hbit
  · simp [hbit]
  · simp [hbit]

theorem clmulLoop_eq (a : Nat) (sh : Word → Nat → Word) (x y : Word) :
    clmulLoop a sh x y = xorFold y.getLsbD (sh x) (List.range' a (32 - a)) := by
  unfold clmulLoop xorFold
  simp only [shift_and_one_ne_zero_iff]

/-- A window of the product is the loop over the windows of the shifted operand. -/
theorem window_product (s : Nat) (x y : Word) : (product 64 x y).extractLsb' s 32 =
    xorFold y.getLsbD (fun i => (x.setWidth 64 <<< i).extractLsb' s 32) (List.range 32) :=
  xorFold_map (g := fun z : BitVec 64 => z.extractLsb' s 32) BitVec.extractLsb'_zero fun _ _ => BitVec.extractLsb'_xor

theorem window_low (x : Word) (i : Nat) : (x.setWidth 64 <<< i).extractLsb' 0 32 = x <<< i := by
  apply BitVec.eq_of_getLsbD_eq
  intro j hj
  rw [BitVec.getLsbD_extractLsb', BitVec.getLsbD_shiftLeft, BitVec.getLsbD_shiftLeft, BitVec.getLsbD_setWidth]
  simp [hj, show j < 64 by omega, show j - i < 64 by omega]

theorem window_high (x : Word) {i s : Nat} (hi : i ≤ s) (hs : s ≤ 32) :
    (x.setWidth 64 <<< i).extractLsb' s 32 = x >>> (s - i) := by
  apply BitVec.eq_of_getLsbD_eq
  intro j hj
  rw [BitVec.getLsbD_extractLsb', BitVec.getLsbD_shiftLeft, BitVec.getLsbD_ushiftRight, BitVec.getLsbD_setWidth,
    show s + j - i = s - i + j by omega]
  simp [hj, show s + j < 64 by omega, show s - i + j < 64 by omega, show ¬ s + j < i by omega]

theorem clmul_product (x y : Word) : clmulLoop 0 (fun x i => x <<< i) x y = (product 64 x y).extractLsb' 0 32 := by
  rw [clmulLoop_eq, window_product, List.range_eq_range']
  exact xorFold_congr fun i _ => (window_low x i).symm

theorem clmulh_product (x y : Word) :
    clmulLoop 1 (fun x i => x >>> (32 - i)) x y = (product 64 x y).extractLsb' 32 32 := by
  have hfirst : (x.setWidth 64 <<< 0).extractLsb' 32 32 = 0 := by
    rw [window_high x (Nat.zero_le _) (Nat.le_refl _)]
    exact BitVec.ushiftRight_eq_zero (Nat.le_refl _)
  rw [clmulLoop_eq, window_product, List.range_eq_range']
  -- the loop of the handler leaves bit 0 out
  rw [show List.range' 0 32 = 0 :: List.range' 1 31 from rfl,
    xorFold_cons_zero (f := fun i => (x.setWidth 64 <<< i).extractLsb' 32 32) hfirst]
  refine xorFold_congr fun i hi => (window_high x ?_ (Nat.le_refl _)).symm
  rw [List.mem_range'_1] at hi
  omega

theorem clmulr_product (x y : Word) :
    clmulLoop 0 (fun x i => x >>> (32 - i - 1)) x y = (product 64 x y).extractLsb' 31 32 := by
  rw [clmulLoop_eq, window_product, List.range_eq_range']
  refine xorFold_congr fun i hi => ?_
  rw [List.mem_range'_1] at hi
  rw [window_high x (by omega) (by decide), show 32 - i - 1 = 31 - i by omega]

/-- **`clmul`, `clmulh` and `clmulr` return three windows of one carry-less product**, whatever register `rd` is. -/
theorem zbc_windows (env : Env) (ir : Insn) (lk : Links) (cycle : BitVec 64) (pc : Word) (s : Cpu) :
    poly (product 64 (s.X ir.rs1) (s.X ir.rs2)) = poly (s.X ir.rs1) * poly (s.X ir.rs2) ∧
      (rvop .clmul).exec env ir lk cycle pc s =
        .next (s.setX ir.rd ((product 64 (s.X ir.rs1) (s.X ir.rs2)).extractLsb' 0 32)) ∧
      (rvop .clmulh).exec env ir lk cycle pc s =
        .next (s.setX ir.rd ((product 64 (s.X ir.rs1) (s.X ir.rs2)).extractLsb' 32 32)) ∧
      (rvop .clmulr).exec env ir lk cycle pc s =
        .next (s.setX ir.rd ((product 64 (s.X ir.rs1) (s.X ir.rs2)).extractLsb' 31 32)) := by
  refine ⟨poly_product _ _ (by decide), ?_, ?_, ?_⟩
  · rw [← clmul_product]
    rfl
  · rw [← clmulh_product]
    rfl
  · rw [← clmulr_product]
    rfl

end Rv32emu
