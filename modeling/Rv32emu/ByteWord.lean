import Mathlib.Algebra.Group.Nat.Defs
import Mathlib.Order.Basic
import Mathlib.Tactic.SplitIfs

/-!
# Little-endian words in byte memory

* `load n mem a` : the word of `n` bytes at `a`; `load_congr`;
* `store n mem a v` : the low `n` bytes of `v` written to `a`; `load_store`.
-/

namespace ByteWord

variable {mem mem' : Nat → BitVec 8} {n m a b v : Nat}

def load : Nat → (Nat → BitVec 8) → Nat → Nat
  | 0, _, _ => 0
  | n + 1, mem, a => (mem a).toNat + 256 * load n mem (a + 1)

def store (n : Nat) (mem : Nat → BitVec 8) (a v : Nat) : Nat → BitVec 8 :=
  fun b => if a ≤ b ∧ b < a + n then BitVec.ofNat 8 (v / 256 ^ (b - a)) else mem b

theorem load_congr (h : ∀ i < n, mem' (a + i) = mem (a + i)) : load n mem' a = load n mem a := by
  induction n generalizing a with
  | zero => rfl
  | succ n ih =>
    have hfirst := h 0 (Nat.succ_pos n)
    rw [Nat.add_zero] at hfirst
    have hrest : load n mem' (a + 1) = load n mem (a + 1) := ih fun i hi => by
      rw [Nat.add_assoc, Nat.add_comm 1]
      exact h (i + 1) (Nat.succ_lt_succ hi)
    rw [load, load, hfirst, hrest]

theorem store_of_lt (h : b < a) : store n mem a v b = mem b := if_neg fun hc => absurd hc.1 (Nat.not_le.mpr h)

theorem store_of_ge (h : a + n ≤ b) : store n mem a v b = mem b := if_neg fun hc => absurd hc.2 (Nat.not_lt.mpr h)

theorem load_store_part {k : Nat} (h : k + m ≤ n) : load m (store n mem a v) (a + k) = v / 256 ^ k % 256 ^ m := by
  induction m generalizing k with
  | zero => rw [Nat.pow_zero, Nat.mod_one, load]
  | succ m ih =>
    have hbyte : store n mem a v (a + k) = BitVec.ofNat 8 (v / 256 ^ k) := by
      rw [store, if_pos ⟨Nat.le_add_right a k, by omega⟩, Nat.add_sub_cancel_left]
    have hrest := ih (k := k + 1) (by omega)
    have hdiv : v / 256 ^ (k + 1) = v / 256 ^ k / 256 := by rw [Nat.pow_succ, Nat.div_div_eq_div_mul]
    have hpow : 256 ^ (m + 1) = 256 * 256 ^ m := Nat.pow_succ'
    rw [load, hbyte, Nat.add_assoc, hrest, hdiv, BitVec.toNat_ofNat, hpow, Nat.mod_mul]

theorem load_store (h : m ≤ n) : load m (store n mem a v) a = v % 256 ^ m := by
  have hpart : load m (store n mem a v) (a + 0) = v / 256 ^ 0 % 256 ^ m := load_store_part (by omega)
  rwa [Nat.add_zero, Nat.pow_zero, Nat.div_one] at hpart

end ByteWord
