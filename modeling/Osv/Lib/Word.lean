import Mathlib.Data.Nat.Bitwise

/-!
# Bits of 64-bit words

The facts about `UInt64` that the models of bit masks use: every operation read through
`Nat.testBit` of `toNat`, so that two words are compared bit by bit (`Nat.eq_of_testBit_eq`)
and a one-bit mask reads one bit.  Shifts are `UInt64` shifts, whose count is taken modulo `64`.
-/

namespace Word

theorem toNat_one_shiftLeft {s : ℕ} (hs : s < 64) :
    ((1 : UInt64) <<< s.toUInt64).toNat = 2 ^ s := by
  have hs' : s % 2 ^ 64 = s := Nat.mod_eq_of_lt (Nat.lt_trans hs (by decide))
  rw [UInt64.toNat_shiftLeft, UInt64.toNat_one, Nat.toUInt64_eq, UInt64.toNat_ofNat', hs',
    Nat.mod_eq_of_lt hs, Nat.one_shiftLeft]
  exact Nat.mod_eq_of_lt (Nat.pow_lt_pow_right (by decide) hs)

theorem toNat_one_shiftLeft_sub_one {s : ℕ} (hs : s < 64) :
    ((1 : UInt64) <<< s.toUInt64 - 1).toNat = 2 ^ s - 1 := by
  have hpos : 1 ≤ 2 ^ s := Nat.one_le_two_pow
  have hlt : 2 ^ s < 2 ^ 64 := Nat.pow_lt_pow_right (by decide) hs
  rw [UInt64.toNat_sub, toNat_one_shiftLeft hs, UInt64.toNat_one]
  omega

/-- A word has no bit from `64` on. -/
theorem testBit_of_le (x : UInt64) {j : ℕ} (hj : 64 ≤ j) : x.toNat.testBit j = false :=
  Nat.testBit_lt_two_pow
    (Nat.lt_of_lt_of_le (UInt64.toNat_lt x) (Nat.pow_le_pow_right (by decide) hj))

theorem testBit_and (x y : UInt64) (j : ℕ) :
    (x &&& y).toNat.testBit j = (x.toNat.testBit j && y.toNat.testBit j) := by
  rw [UInt64.toNat_and, Nat.testBit_and]

theorem testBit_or (x y : UInt64) (j : ℕ) :
    (x ||| y).toNat.testBit j = (x.toNat.testBit j || y.toNat.testBit j) := by
  rw [UInt64.toNat_or, Nat.testBit_or]

theorem testBit_not (x : UInt64) (j : ℕ) :
    (~~~x).toNat.testBit j = (decide (j < 64) && !x.toNat.testBit j) :=
  BitVec.getLsbD_not

/-- A value below `2 ^ 64` shifted left by less than `64` without overflow: its bits move up. -/
theorem testBit_shiftLeft {i k : ℕ} (hk : k < 64) (hi : i * 2 ^ k < 2 ^ 64) (j : ℕ) :
    (i.toUInt64 <<< k.toUInt64).toNat.testBit j = (decide (k ≤ j) && i.testBit (j - k)) := by
  have hi' : i < 2 ^ 64 := Nat.lt_of_le_of_lt (Nat.le_mul_of_pos_right i (Nat.two_pow_pos k)) hi
  have hk' : k % 2 ^ 64 = k := Nat.mod_eq_of_lt (Nat.lt_trans hk (by decide))
  rw [UInt64.toNat_shiftLeft, Nat.toUInt64_eq, Nat.toUInt64_eq, UInt64.toNat_ofNat',
    UInt64.toNat_ofNat', hk', Nat.mod_eq_of_lt hk, Nat.mod_eq_of_lt hi', Nat.shiftLeft_eq,
    Nat.mod_eq_of_lt hi, Nat.testBit_mul_two_pow]

/-- `x & y` for a one-bit mask `y = 2 ^ j` is non-zero exactly when bit `j` of `x` is set. -/
theorem and_ne_zero_of_two_pow (x y : UInt64) {j : ℕ} (hy : y.toNat = 2 ^ j) :
    decide (x &&& y ≠ 0) = x.toNat.testBit j := by
  have hv : (x &&& y).toNat = (x.toNat.testBit j).toNat * 2 ^ j := by
    rw [UInt64.toNat_and, hy, Nat.and_two_pow]
  cases h : x.toNat.testBit j with
  | false =>
      rw [h, Bool.toNat_false, Nat.zero_mul, ← UInt64.toNat_zero, UInt64.toNat_inj] at hv
      simp [hv]
  | true =>
      rw [h, Bool.toNat_true, Nat.one_mul] at hv
      have hne : x &&& y ≠ 0 := fun h0 => by
        rw [h0, UInt64.toNat_zero] at hv
        exact absurd hv.symm (Nat.two_pow_pos j).ne'
      simp [hne]

/-- The bits of `2 ^ n + (2 ^ k - 1)`: the low `k` and bit `n`. -/
theorem testBit_two_pow_add_low {n k : ℕ} (hk : k < n) (j : ℕ) :
    (2 ^ n + (2 ^ k - 1)).testBit j = (decide (j < k) || decide (j = n)) := by
  have hlow : 2 ^ k - 1 < 2 ^ n :=
    Nat.lt_of_lt_of_le (Nat.sub_lt (Nat.two_pow_pos k) Nat.one_pos)
      (Nat.pow_le_pow_right (by decide) hk.le)
  rcases Nat.lt_trichotomy j n with hj | rfl | hj
  · rw [Nat.testBit_two_pow_add_gt hj, Nat.testBit_two_pow_sub_one]
    simp [Nat.ne_of_lt hj]
  · rw [Nat.testBit_two_pow_add_eq, Nat.testBit_two_pow_sub_one]
    simp [Nat.not_lt.mpr hk.le]
  · -- the number is below `2 ^ (n + 1)`, so it has no bit above `n`
    have hbound : 2 ^ n + (2 ^ k - 1) < 2 ^ j :=
      Nat.lt_of_lt_of_le (by rw [Nat.pow_succ]; omega) (Nat.pow_le_pow_right (by decide) hj)
    rw [Nat.testBit_lt_two_pow hbound]
    simp [Nat.ne_of_gt hj, show ¬ j < k by omega]

end Word
