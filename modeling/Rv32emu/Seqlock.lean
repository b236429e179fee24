import Mathlib.Data.BitVec

/-!
# Sequence locks

A sequence number of `w` bits beside data. A writer adds one to the number before it touches the data and one more
afterwards, so that the number is even while nobody writes. A reader loads the number, parts of the data, and the
number again.

* `Cell.Store` : one store of a writer, with the number of its stores to the sequence number (0 or 1);
* `Cell.Seen` : what a reader that has loaded the number `q` knows after `lag` stores to it;
* `Cell.Seen.read` : if the number is still `q`, and not because it has come round, what the reader has loaded is
  what the cell holds.
-/

namespace Seqlock

structure Cell (w : Nat) (α : Type*) where
  seq : BitVec w
  data : α

namespace Cell

variable {w : Nat} {α : Type*} {c c' : Cell w α} {q : BitVec w} {lag n : Nat} {P Q : α → Prop}

def Even (c : Cell w α) : Prop := c.seq.toNat % 2 = 0

/-- A store to the number, or one to the data while the number is odd. -/
inductive Store : Cell w α → Nat → Cell w α → Prop
  | mark (c : Cell w α) : Store c 1 { c with seq := c.seq + 1 }
  | put (c : Cell w α) (a : α) (hodd : ¬ c.Even) : Store c 0 { c with data := a }
  | none (c : Cell w α) : Store c 0 c

/-- Adding one to the number changes its parity, if it has a bit at all. -/
theorem even_mark (hw : 0 < w) (c : Cell w α) : Even { c with seq := c.seq + 1 } ↔ ¬ c.Even := by
  obtain ⟨k, rfl⟩ := Nat.exists_eq_add_of_lt hw
  have hpow : 2 ^ (0 + k + 1) = 2 * 2 ^ k := by rw [Nat.zero_add, pow_succ, Nat.mul_comm]
  have hk : 0 < 2 ^ k := Nat.two_pow_pos k
  have hone : (1 : BitVec (0 + k + 1)).toNat = 1 := by
    change 1 % 2 ^ (0 + k + 1) = 1
    exact Nat.mod_eq_of_lt (by omega)
  unfold Even
  rw [BitVec.toNat_add, hone, hpow, Nat.mod_mul_right_mod]
  omega

/-- The reader has loaded `q`, which was even; `lag` stores to the number later, `P` holds of the data unless the
number has been written. -/
structure Seen (q : BitVec w) (lag : Nat) (P : α → Prop) (c : Cell w α) : Prop where
  even : q.toNat % 2 = 0
  seq : c.seq = q + BitVec.ofNat w lag
  data : lag = 0 → P c.data

theorem Seen.start (h : c.Even) : Seen c.seq 0 (fun _ => True) c :=
  ⟨h, (BitVec.add_zero _).symm, fun _ => trivial⟩

theorem Seen.imp (h : Seen q lag P c) (himp : P c.data → Q c.data) : Seen q lag Q c :=
  ⟨h.even, h.seq, fun hz => himp (h.data hz)⟩

/-- A cell whose number has not been written is even. -/
theorem Seen.even_of_zero (h : Seen q 0 P c) : c.Even := by
  have hseq : c.seq = q := h.seq.trans (BitVec.add_zero q)
  unfold Even
  rw [hseq]
  exact h.even

theorem Seen.store (h : Seen q lag P c) (hs : Store c n c') : Seen q (lag + n) P c' := by
  cases hs with
  | mark =>
    refine ⟨h.even, ?_, fun hz => absurd hz (Nat.succ_ne_zero lag)⟩
    change c.seq + 1 = _
    rw [h.seq, BitVec.add_assoc, BitVec.ofNat_add]
    rfl
  | put a hodd =>
    refine ⟨h.even, h.seq, fun hz => ?_⟩
    subst hz
    exact absurd h.even_of_zero hodd
  | none => exact h

theorem Seen.read (h : Seen q lag P c) (hlag : lag < 2 ^ w) (hseq : c.seq = q) : c.Even ∧ P c.data := by
  have hzero : lag = 0 := by
    have hofNat : BitVec.ofNat w lag = 0#w := by
      have hq : q + BitVec.ofNat w lag = q + 0#w := (h.seq.symm.trans hseq).trans (BitVec.add_zero q).symm
      exact (BitVec.add_right_inj q).mp hq
    have hmod := congrArg BitVec.toNat hofNat
    rwa [BitVec.toNat_ofNat, Nat.mod_eq_of_lt hlag, BitVec.toNat_zero] at hmod
  subst hzero
  exact ⟨h.even_of_zero, h.data rfl⟩

end Cell

end Seqlock
