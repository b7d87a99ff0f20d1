import Mathlib

/-!
# IEEE 754 binary floating point, by value

A binary format (`Fmt`) is the number of bits of its significand, the leading one included,
and of its exponent field; binary32 and binary64 are two of them.  A value (`FVal`) is a finite
number `m * 2 ^ e`, an infinity or NaN.  Every operation computes its result exactly and rounds
it to the nearest value of the format, ties to even (`round`), as IEEE 754 asks of `+`, `-`,
`*`, `/` and of conversions; a result too large for the format is an infinity.  `toBits` and
`ofBits` are the encoding, for code that reads the bits of a float through a union.

Zero has one sign here: no operation that the development runs tells `-0` from `+0`.

`round` keeps values canonical: a normal value's significand has exactly `prec` bits, a
subnormal one has the exponent of the least normal binade, so that `toBits` reads the fields
straight off it.  Its two steps are characterised by `floorLog2_one` (the binade) and
`roundDiv_eq` (rounding to an integer, ties to even); with them, `add_one_of_small` shows that
in binary32 a nonnegative value of at most `2 ^ -24` is lost when added to one.
-/

namespace IeeeFloat

/-- A binary format: bits of the significand with the leading one, and of the exponent
field. -/
structure Fmt where
  prec : ℕ
  expBits : ℕ

def binary32 : Fmt := ⟨24, 8⟩
def binary64 : Fmt := ⟨53, 11⟩

namespace Fmt

/-- The exponent of the greatest finite binade, which is also the bias. -/
def emax (f : Fmt) : ℤ := 2 ^ (f.expBits - 1) - 1

/-- The exponent of the least normal binade. -/
def emin (f : Fmt) : ℤ := 1 - f.emax

/-- The exponent of the unit in the last place of a subnormal value. -/
def qmin (f : Fmt) : ℤ := f.emin - (f.prec - 1 : ℕ)

end Fmt

/-- A floating-point value: `fin m e` is `m * 2 ^ e`. -/
inductive FVal
  | fin (m : ℤ) (e : ℤ)
  | inf (neg : Bool)
  | nan
  deriving DecidableEq, Repr

/-- `2 ^ e` as a factor on an integer, for `e ≥ 0`. -/
def shiftUp (m : ℤ) (e : ℤ) : ℤ := m * 2 ^ e.toNat

/-- `⌊log₂ (a / den)⌋`, for positive `a` and `den`. -/
def floorLog2 (a den : ℕ) : ℤ :=
  let l : ℤ := (Nat.log2 a : ℤ) - Nat.log2 den
  -- `a / den` lies in `(2 ^ (l - 1), 2 ^ (l + 1))`: one comparison decides
  let below : Bool := if 0 ≤ l then a < den * 2 ^ l.toNat else a * 2 ^ (-l).toNat < den
  if below then l - 1 else l

/-- `num / den` rounded to the nearest integer, ties to even. -/
def roundDiv (num den : ℕ) : ℕ :=
  let n := num / den
  let r := num % den
  if den < 2 * r ∨ (2 * r = den ∧ n % 2 = 1) then n + 1 else n

/-- The value of the format nearest to `(-1) ^ neg * a / den * 2 ^ e`, ties to even; an
infinity above the greatest finite value by half a unit in the last place or more. -/
def round (f : Fmt) (neg : Bool) (a den : ℕ) (e : ℤ) : FVal :=
  if a = 0 then .fin 0 f.qmin
  else
    let q := max (floorLog2 a den + e) f.emin - (f.prec - 1 : ℕ)
    let n := if q ≤ e then roundDiv (a * 2 ^ (e - q).toNat) den
      else roundDiv a (den * 2 ^ (q - e).toNat)
    -- rounding up may carry into the next binade
    let nq : ℕ × ℤ := if n = 2 ^ f.prec then (2 ^ (f.prec - 1), q + 1) else (n, q)
    if f.emax < nq.2 + (f.prec - 1 : ℕ) then .inf neg
    else .fin (if neg then -(nq.1 : ℤ) else nq.1) nq.2

namespace FVal

variable (f : Fmt)

def neg : FVal → FVal
  | .fin m e => .fin (-m) e
  | .inf n => .inf (!n)
  | .nan => .nan

/-- `x + y`. -/
def add : FVal → FVal → FVal
  | .fin m₁ e₁, .fin m₂ e₂ =>
      let e := min e₁ e₂
      let s := shiftUp m₁ (e₁ - e) + shiftUp m₂ (e₂ - e)
      round f (decide (s < 0)) s.natAbs 1 e
  | .nan, _ => .nan
  | _, .nan => .nan
  | .inf a, .inf b => if a = b then .inf a else .nan
  | .inf a, .fin _ _ => .inf a
  | .fin _ _, .inf b => .inf b

/-- `x - y`. -/
def sub (x y : FVal) : FVal := add f x y.neg

/-- `x * y`. -/
def mul : FVal → FVal → FVal
  | .fin m₁ e₁, .fin m₂ e₂ => round f (decide (m₁ * m₂ < 0)) (m₁ * m₂).natAbs 1 (e₁ + e₂)
  | .nan, _ => .nan
  | _, .nan => .nan
  | .inf a, .inf b => .inf (a != b)
  | .inf a, .fin m _ => if m = 0 then .nan else .inf (a != decide (m < 0))
  | .fin m _, .inf b => if m = 0 then .nan else .inf (b != decide (m < 0))

/-- `x / y`. -/
def div : FVal → FVal → FVal
  | .fin m₁ e₁, .fin m₂ e₂ =>
      if m₂ = 0 then (if m₁ = 0 then .nan else .inf (decide (m₁ < 0)))
      else round f (decide (m₁ < 0) != decide (m₂ < 0)) m₁.natAbs m₂.natAbs (e₁ - e₂)
  | .nan, _ => .nan
  | _, .nan => .nan
  | .inf _, .inf _ => .nan
  | .inf a, .fin m _ => .inf (a != decide (m < 0))
  | .fin _ _, .inf _ => .fin 0 f.qmin

/-- The conversion of an integer. -/
def ofInt (n : ℤ) : FVal := round f (decide (n < 0)) n.natAbs 1 0

/-- The value of a decimal literal `num / den`. -/
def ofRat (num : ℤ) (den : ℕ) : FVal := round f (decide (num < 0)) num.natAbs den 0

/-- The conversion of a value to the format. -/
def convert : FVal → FVal
  | .fin m e => round f (decide (m < 0)) m.natAbs 1 e
  | x => x

/-- `x < y`: false when either is NaN. -/
def lt : FVal → FVal → Bool
  | .fin m₁ e₁, .fin m₂ e₂ =>
      let e := min e₁ e₂
      decide (shiftUp m₁ (e₁ - e) < shiftUp m₂ (e₂ - e))
  | .inf a, .inf b => a && !b
  | .inf a, .fin _ _ => a
  | .fin _ _, .inf b => !b
  | _, _ => false

/-- `x == y`: false when either is NaN. -/
def beq : FVal → FVal → Bool
  | .fin m₁ e₁, .fin m₂ e₂ =>
      let e := min e₁ e₂
      decide (shiftUp m₁ (e₁ - e) = shiftUp m₂ (e₂ - e))
  | .inf a, .inf b => a == b
  | _, _ => false

/-- The conversion to an integer, toward zero; none for an infinity or NaN. -/
def truncate : FVal → Option ℤ
  | .fin m e => some (if 0 ≤ e then shiftUp m e else m.tdiv (2 ^ (-e).toNat))
  | _ => none

/-- The bits of a value: sign, biased exponent and fraction. -/
def toBits : FVal → ℕ
  | .fin m e =>
      let n := m.natAbs
      let sign := if m < 0 then 2 ^ (f.prec - 1 + f.expBits) else 0
      if n < 2 ^ (f.prec - 1) then sign + n
      else sign + (e + (f.prec - 1 : ℕ) + f.emax).toNat * 2 ^ (f.prec - 1) + (n - 2 ^ (f.prec - 1))
  | .inf neg => (if neg then 2 ^ (f.prec - 1 + f.expBits) else 0) +
      (2 ^ f.expBits - 1) * 2 ^ (f.prec - 1)
  | .nan => (2 ^ f.expBits - 1) * 2 ^ (f.prec - 1) + 2 ^ (f.prec - 2)

/-- The value of some bits. -/
def ofBits (b : ℕ) : FVal :=
  let frac := b % 2 ^ (f.prec - 1)
  let biased := b / 2 ^ (f.prec - 1) % 2 ^ f.expBits
  let neg := b / 2 ^ (f.prec - 1 + f.expBits) % 2 = 1
  let signed (n : ℕ) : ℤ := if neg then -(n : ℤ) else n
  if biased = 0 then .fin (signed frac) f.qmin
  else if biased = 2 ^ f.expBits - 1 then (if frac = 0 then .inf neg else .nan)
  else .fin (signed (2 ^ (f.prec - 1) + frac)) (biased - f.emax - (f.prec - 1 : ℕ))

end FVal

/-! ## Rounding lemmas -/

theorem roundDiv_eq {num den n r : ℕ} (hden : 0 < den) (h : num = n * den + r)
    (hr : 2 * r < den ∨ (2 * r = den ∧ n % 2 = 0)) : roundDiv num den = n := by
  have hlt : r < den := by omega
  have hdiv : num / den = n := by
    rw [h, Nat.add_comm, Nat.add_mul_div_right _ _ hden, Nat.div_eq_of_lt hlt, Nat.zero_add]
  have hmod : num % den = r := by
    rw [h, Nat.add_comm, Nat.add_mul_mod_self_right, Nat.mod_eq_of_lt hlt]
  unfold roundDiv
  rw [hdiv, hmod, if_neg (by omega)]

theorem floorLog2_one {a k : ℕ} (h₁ : 2 ^ k ≤ a) (h₂ : a < 2 ^ (k + 1)) : floorLog2 a 1 = k := by
  have ha : a ≠ 0 := Nat.pos_iff_ne_zero.mp (Nat.lt_of_lt_of_le (Nat.two_pow_pos k) h₁)
  have hlog : Nat.log2 a = k :=
    Nat.le_antisymm (Nat.lt_succ_iff.mp ((Nat.log2_lt ha).mpr h₂)) ((Nat.le_log2 ha).mpr h₁)
  have h1 : Nat.log2 1 = 0 := by decide
  unfold floorLog2
  simp [hlog, h1, Nat.not_lt.mpr h₁]

@[simp] theorem prec_binary32 : binary32.prec = 24 := rfl
@[simp] theorem emax_binary32 : binary32.emax = 127 := by decide
@[simp] theorem emin_binary32 : binary32.emin = -126 := by decide

/-- Rounding `2 ^ 23 + r / 2 ^ K`, within half a unit in the last place of one, gives one. -/
theorem round_near_one {K r : ℕ} (hK : 0 < K) (hr : 2 * r ≤ 2 ^ K) {e : ℤ} (he : e = -23 - K) :
    round binary32 false (2 ^ 23 * 2 ^ K + r) 1 e = .fin (2 ^ 23) (-23) := by
  have hpos := Nat.two_pow_pos K
  have hpow : 2 ^ (23 + K) = 2 ^ 23 * 2 ^ K := Nat.pow_add 2 23 K
  have hlog : floorLog2 (2 ^ 23 * 2 ^ K + r) 1 = ((23 + K : ℕ) : ℤ) := by
    apply floorLog2_one
    · omega
    · rw [Nat.pow_succ]
      omega
  -- the unit in the last place is that of one, below e
  have hq : max (((23 + K : ℕ) : ℤ) + e) binary32.emin - ((binary32.prec - 1 : ℕ) : ℤ) = -23 := by
    simp only [emin_binary32, prec_binary32]
    omega
  have hbelow : ¬ (-23 : ℤ) ≤ e := by omega
  have hexp : (-23 - e).toNat = K := by omega
  have hn : roundDiv (2 ^ 23 * 2 ^ K + r) (1 * 2 ^ K) = 2 ^ 23 := by
    refine roundDiv_eq (by omega) (by rw [Nat.one_mul]) ?_
    omega
  unfold round
  rw [if_neg (by omega)]
  simp only [hlog, hq, if_neg hbelow, hexp, hn]
  decide

/-- **One plus at most half a unit in its last place is one.**  In binary32, `1 + x` rounds to
`1` for every `x = m * 2 ^ e` with `0 ≤ x ≤ 2 ^ -24`. -/
theorem add_one_of_small {m e : ℤ} (hm : 0 ≤ m) (hsmall : m * 2 ^ 24 ≤ 2 ^ (-e).toNat) :
    FVal.add binary32 (.fin (2 ^ 23) (-23)) (.fin m e) = .fin (2 ^ 23) (-23) := by
  have hsmall' : m.toNat * 2 ^ 24 ≤ 2 ^ (-e).toNat := by
    rw [← Int.toNat_of_nonneg hm] at hsmall
    exact_mod_cast hsmall
  by_cases he : -23 ≤ e
  · -- nothing that small is a multiple of 2 ^ -23 but zero
    have hle : 2 ^ (-e).toNat ≤ 2 ^ 23 := Nat.pow_le_pow_right (by decide) (by omega)
    have hm0 : m = 0 := by
      generalize 2 ^ (-e).toNat = t at hle hsmall'
      omega
    subst hm0
    simp only [FVal.add]
    rw [Int.min_eq_left he]
    simp [shiftUp]
    decide
  · obtain ⟨K, hK, hKpos⟩ : ∃ K : ℕ, e = -23 - K ∧ 0 < K := ⟨(-23 - e).toNat, by omega, by omega⟩
    -- the addend is at most half of 2 ^ (e + K), the unit in the last place of one
    have hr : 2 * m.toNat ≤ 2 ^ K := by
      rw [show (-e).toNat = 23 + K by omega, Nat.pow_add] at hsmall'
      generalize 2 ^ K = t at hsmall' ⊢
      omega
    have hs : shiftUp (2 ^ 23) (-23 - min (-23) e) + shiftUp m (e - min (-23) e) =
        ((2 ^ 23 * 2 ^ K + m.toNat : ℕ) : ℤ) := by
      rw [Int.min_eq_right (by omega), show -23 - e = (K : ℤ) by omega, Int.sub_self]
      simp [shiftUp, Int.toNat_of_nonneg hm]
    simp only [FVal.add]
    simp only [hs, Int.natAbs_natCast]
    rw [decide_eq_false (Int.not_lt.mpr (Int.natCast_nonneg _)), Int.min_eq_right (by omega)]
    exact round_near_one hKpos hr hK

end IeeeFloat
