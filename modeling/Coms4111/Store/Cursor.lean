import Mathlib.Algebra.Group.Nat.Defs
import Mathlib.Data.Nat.Bits
import Mathlib.Tactic.Common

/-!
# Cursors that count from the highest bit

A cursor over `w` bits is advanced by adding one to it in reverse. Its **position** is the
number that its reversed bits stand for. A block of `k` bits is the numbers that agree with
the cursor on the lowest `k`; in terms of positions it is an interval, and advancing the
cursor takes it to the interval's end.

* `block_or_advance`: a position that is not before the cursor is in its block or not before
  the next cursor. So a cursor that has come round to 0 has passed through every position,
  whatever the blocks were.
-/

namespace Coms4111.Store

variable {w k : ℕ} {v x : BitVec w}

/-- The number that the reversed bits stand for. -/
def pos (v : BitVec w) : ℕ := v.reverse.toNat

theorem pos_lt (v : BitVec w) : pos v < 2 ^ w := v.reverse.isLt

theorem testBit_pos (v : BitVec w) {j : ℕ} (hj : j < w) : (pos v).testBit j = v.getLsbD (w - 1 - j) := by
  rw [pos, BitVec.testBit_toNat, BitVec.getLsbD_reverse, BitVec.getMsbD_eq_getLsbD]
  simp [hj]

theorem testBit_pos_of_le (v : BitVec w) {j : ℕ} (hj : w ≤ j) : (pos v).testBit j = false := by
  rw [pos, BitVec.testBit_toNat]
  exact BitVec.getLsbD_of_ge _ _ hj

/-- **A block is an interval of positions.** -/
theorem pos_div_eq_iff (hk : k ≤ w) (x v : BitVec w) :
    pos x / 2 ^ (w - k) = pos v / 2 ^ (w - k) ↔ x.toNat % 2 ^ k = v.toNat % 2 ^ k := by
  rw [← Nat.shiftRight_eq_div_pow, ← Nat.shiftRight_eq_div_pow]
  constructor
  · intro h
    refine Nat.eq_of_testBit_eq fun i => ?_
    rw [Nat.testBit_mod_two_pow, Nat.testBit_mod_two_pow]
    by_cases hi : i < k
    · have hbit := congrArg (Nat.testBit · (k - 1 - i)) h
      simp only [Nat.testBit_shiftRight] at hbit
      rw [testBit_pos x (by omega), testBit_pos v (by omega),
        show w - 1 - (w - k + (k - 1 - i)) = i by omega] at hbit
      rw [BitVec.testBit_toNat, BitVec.testBit_toNat, hbit]
    · simp [hi]
  · intro h
    refine Nat.eq_of_testBit_eq fun j => ?_
    rw [Nat.testBit_shiftRight, Nat.testBit_shiftRight]
    by_cases hj : j < k
    · have hbit := congrArg (Nat.testBit · (k - 1 - j)) h
      simp only [Nat.testBit_mod_two_pow, BitVec.testBit_toNat] at hbit
      rw [testBit_pos x (by omega), testBit_pos v (by omega), show w - 1 - (w - k + j) = k - 1 - j by omega]
      simpa [show k - 1 - j < k by omega] using hbit
    · rw [testBit_pos_of_le x (by omega), testBit_pos_of_le v (by omega)]

/-- The mask of the lowest `k` bits. -/
def lowMask (w k : ℕ) : BitVec w := BitVec.ofNat w (2 ^ k - 1)

theorem getLsbD_lowMask (hk : k ≤ w) (i : ℕ) : (lowMask w k).getLsbD i = decide (i < k) := by
  rw [lowMask, BitVec.getLsbD_ofNat, Nat.testBit_two_pow_sub_one]
  by_cases hi : i < k
  · simp [hi, show i < w by omega]
  · simp [hi]

theorem toNat_and_lowMask (hk : k ≤ w) (v : BitVec w) : (v &&& lowMask w k).toNat = v.toNat % 2 ^ k := by
  refine Nat.eq_of_testBit_eq fun i => ?_
  rw [BitVec.testBit_toNat, BitVec.getLsbD_and, getLsbD_lowMask hk, Nat.testBit_mod_two_pow, BitVec.testBit_toNat,
    Bool.and_comm]

/-- The next cursor: one is added to the reversed bits, from the lowest `k` on. -/
def advance (k : ℕ) (v : BitVec w) : BitVec w := ((v ||| ~~~lowMask w k).reverse + 1).reverse

/-- The other bits make no difference. -/
theorem advance_congr (hk : k ≤ w) {v' : BitVec w} (h : v.toNat % 2 ^ k = v'.toNat % 2 ^ k) :
    advance k v = advance k v' := by
  have hfill : v ||| ~~~lowMask w k = v' ||| ~~~lowMask w k := by
    refine BitVec.eq_of_getLsbD_eq fun i hi => ?_
    have hbit := congrArg (Nat.testBit · i) h
    simp only [Nat.testBit_mod_two_pow, BitVec.testBit_toNat] at hbit
    rw [BitVec.getLsbD_or, BitVec.getLsbD_or, BitVec.getLsbD_not, getLsbD_lowMask hk]
    by_cases hik : i < k
    · simpa [hik] using hbit
    · simp [hik, hi]
  rw [advance, advance, hfill]

/-- Filling the other bits takes a cursor to the last position of its block. -/
theorem pos_fill (hk : k ≤ w) (v : BitVec w) :
    pos (v ||| ~~~lowMask w k) = 2 ^ (w - k) * (pos v / 2 ^ (w - k)) + (2 ^ (w - k) - 1) := by
  have hlt : 2 ^ (w - k) - 1 < 2 ^ (w - k) := Nat.sub_lt (Nat.two_pow_pos _) Nat.one_pos
  refine Nat.eq_of_testBit_eq fun j => ?_
  rw [Nat.testBit_two_pow_mul_add _ hlt]
  by_cases hj : j < w
  · rw [testBit_pos _ hj, BitVec.getLsbD_or, BitVec.getLsbD_not, getLsbD_lowMask hk]
    by_cases hjk : j < w - k
    · rw [if_pos hjk, Nat.testBit_two_pow_sub_one]
      simp [hjk, show w - 1 - j < w by omega, show ¬w - 1 - j < k by omega]
    · rw [if_neg hjk, ← Nat.shiftRight_eq_div_pow, Nat.testBit_shiftRight,
        show w - k + (j - (w - k)) = j by omega, testBit_pos v hj]
      simp [show w - 1 - j < k by omega]
  · rw [testBit_pos_of_le _ (by omega), if_neg (by omega), ← Nat.shiftRight_eq_div_pow, Nat.testBit_shiftRight,
      testBit_pos_of_le _ (by omega)]

theorem pos_advance (hk : k ≤ w) (v : BitVec w) :
    pos (advance k v) = (2 ^ (w - k) * (pos v / 2 ^ (w - k) + 1)) % 2 ^ w := by
  have hfill := pos_fill hk v
  have hpow := Nat.two_pow_pos (w - k)
  have hone : (1 : BitVec w).toNat = 1 % 2 ^ w := BitVec.toNat_ofNat 1 w
  unfold pos at hfill
  rw [advance, pos, BitVec.reverse_reverse_eq, BitVec.toNat_add, hfill, hone, Nat.add_mod_mod, Nat.mul_add, pos]
  congr 1
  omega

/-- The next cursor has no other bits than the lowest `k`. -/
theorem advance_lt (hk : k ≤ w) (v : BitVec w) : (advance k v).toNat < 2 ^ k := by
  refine Nat.lt_pow_two_of_testBit _ fun i hi => ?_
  rw [BitVec.testBit_toNat]
  by_cases hiw : i < w
  · have hbit := testBit_pos (advance k v) (show w - 1 - i < w by omega)
    rw [show w - 1 - (w - 1 - i) = i by omega, pos_advance hk, Nat.testBit_mod_two_pow, Nat.mul_comm,
      ← Nat.shiftLeft_eq, Nat.testBit_shiftLeft] at hbit
    rw [← hbit]
    simp [show ¬w - k ≤ w - 1 - i by omega]
  · exact BitVec.getLsbD_of_ge _ _ (by omega)

theorem pos_zero : pos (0 : BitVec w) = 0 := by
  have hzero : (0 : BitVec w).reverse = 0#w := BitVec.reverse_eq_zero_iff.2 rfl
  rw [pos, hzero]
  exact BitVec.toNat_zero

/-- **What is not before the cursor is in its block, or not before the next cursor.** -/
theorem block_or_advance (hk : k ≤ w) (h : pos v ≤ pos x) :
    x.toNat % 2 ^ k = v.toNat % 2 ^ k ∨ advance k v ≠ 0 ∧ pos (advance k v) ≤ pos x := by
  have hpow := Nat.two_pow_pos (w - k)
  by_cases hblock : pos x / 2 ^ (w - k) = pos v / 2 ^ (w - k)
  · exact Or.inl ((pos_div_eq_iff hk x v).1 hblock)
  · have hle : pos v / 2 ^ (w - k) ≤ pos x / 2 ^ (w - k) := Nat.div_le_div_right h
    have hend : 2 ^ (w - k) * (pos v / 2 ^ (w - k) + 1) ≤ pos x :=
      Nat.le_trans (Nat.mul_le_mul_left _ (by omega)) (Nat.mul_div_le (pos x) (2 ^ (w - k)))
    have hadv : pos (advance k v) = 2 ^ (w - k) * (pos v / 2 ^ (w - k) + 1) := by
      rw [pos_advance hk, Nat.mod_eq_of_lt (Nat.lt_of_le_of_lt hend (pos_lt x))]
    refine Or.inr ⟨fun hzero => ?_, by rw [hadv]; exact hend⟩
    have hpos : 0 < 2 ^ (w - k) * (pos v / 2 ^ (w - k) + 1) := Nat.mul_pos hpow (Nat.succ_pos _)
    rw [hzero, pos_zero] at hadv
    omega

end Coms4111.Store
