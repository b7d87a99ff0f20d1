import Mathlib.Algebra.BigOperators.Group.Finset.Piecewise
import Mathlib.Data.Fintype.Card
import Mathlib.Algebra.Order.BigOperators.Group.Finset

/-!
# Counting the indices of a function that satisfy a predicate

Counters that code keeps beside a set of threads (the waiters of a lock, say) are specified
by the number of threads in some state: `num P f`, the number of indices `i` with `P (f i)`,
for a state function `f`.  A step changes the state of one thread (`Function.update f i a`),
and the count goes up by one when the thread enters the class (`num_update_enter`), down by one
when it leaves (`num_update_leave`), and stays otherwise (`num_update_stay`); `num_congr`
covers steps that change many threads within or outside the class.
-/

namespace Count

variable {ι α : Type*} [Fintype ι] (P : α → Prop) [DecidablePred P]

/-- The number of indices `i` with `P (f i)`. -/
def num (f : ι → α) : ℕ := (Finset.univ.filter fun i => P (f i)).card

/-- **One update.**  The count after `f i` becomes `a`, with the old value's share added
back, is the old count with the new value's share. -/
theorem num_update [DecidableEq ι] (f : ι → α) (i : ι) (a : α) :
    num P (Function.update f i a) + (if P (f i) then 1 else 0) = num P f + (if P a then 1 else 0) := by
  have hrest : ∑ j ∈ Finset.univ.erase i, (if P (Function.update f i a j) then 1 else 0) =
      ∑ j ∈ Finset.univ.erase i, (if P (f j) then 1 else 0) :=
    Finset.sum_congr rfl fun j hj => by rw [Function.update_of_ne (Finset.ne_of_mem_erase hj)]
  rw [num, num, Finset.card_filter, Finset.card_filter, ← Finset.add_sum_erase _ _ (Finset.mem_univ i),
    ← Finset.add_sum_erase _ _ (Finset.mem_univ i), hrest, Function.update_self]
  omega

variable {P}

section update

variable [DecidableEq ι] {f : ι → α} {i : ι} {a : α}

theorem num_update_enter (hi : ¬ P (f i)) (ha : P a) :
    num P (Function.update f i a) = num P f + 1 := by
  simpa [hi, ha] using num_update P f i a

theorem num_update_leave (hi : P (f i)) (ha : ¬ P a) :
    num P (Function.update f i a) + 1 = num P f := by
  simpa [hi, ha] using num_update P f i a

theorem num_update_stay (h : P (f i) ↔ P a) : num P (Function.update f i a) = num P f := by
  have := num_update P f i a
  rw [if_congr h rfl rfl] at this
  omega

end update

/-- Changes that keep every index in or out of the class keep the count. -/
theorem num_congr {f g : ι → α} (h : ∀ i, P (f i) ↔ P (g i)) : num P f = num P g := by
  unfold num
  congr 1
  exact Finset.filter_congr fun i _ => h i

/-- **One update of a sum.**  The sum after `f i` becomes `b`, with the old summand added back,
is the old sum with the new summand. -/
theorem sum_update [DecidableEq ι] {M : Type*} [AddCommMonoid M] (f : ι → M) (i : ι) (b : M) :
    (∑ j, Function.update f i b j) + f i = (∑ j, f j) + b := by
  rw [Finset.sum_update_of_mem (Finset.mem_univ i),
    Finset.sum_eq_add_sum_sdiff_singleton_of_mem (Finset.mem_univ i) f]
  ac_rfl

/-- **One update of a double sum**, for a function of two indices updated at `(i, j)`. -/
theorem sum_sum_update [DecidableEq ι] {ι' : Type*} [Fintype ι'] [DecidableEq ι'] (f : ι → ι' → ℕ)
    (i : ι) (j : ι') (b : ℕ) :
    (∑ a, ∑ c, Function.update f i (Function.update (f i) j b) a c) + f i j =
      (∑ a, ∑ c, f a c) + b := by
  have hrow : (∑ a, ∑ c, Function.update f i (Function.update (f i) j b) a c) =
      ∑ a, Function.update (fun a => ∑ c, f a c) i (∑ c, Function.update (f i) j b c) a := by
    refine Finset.sum_congr rfl fun a _ => ?_
    by_cases ha : a = i
    · subst ha
      simp
    · simp [Function.update_of_ne ha]
  have houter := sum_update (fun a => ∑ c, f a c) i (∑ c, Function.update (f i) j b c)
  have hinner := sum_update (f i) j b
  rw [hrow]
  omega

/-- **A change at one index.**  A function that agrees with `f` off `i` sums, with `f i` added
back, to the sum of `f` with its own value at `i` added. -/
theorem sum_eq_of_eq_off [DecidableEq ι] {M : Type*} [AddCommMonoid M] {f g : ι → M} (i : ι)
    (h : ∀ j, j ≠ i → g j = f j) : (∑ j, g j) + f i = (∑ j, f j) + g i := by
  have hg : Function.update f i (g i) = g := by
    funext j
    by_cases hj : j = i
    · subst hj
      simp
    · simp [Function.update_of_ne hj, h j hj]
  calc (∑ j, g j) + f i = (∑ j, Function.update f i (g i) j) + f i := by rw [hg]
    _ = (∑ j, f j) + g i := sum_update f i (g i)

/-- **A change at two indices**, for a step that moves two threads at once. -/
theorem sum_eq_of_eq_off₂ [DecidableEq ι] {M : Type*} [AddCommMonoid M] {f g : ι → M}
    {i k : ι} (hik : i ≠ k) (h : ∀ j, j ≠ i → j ≠ k → g j = f j) :
    (∑ j, g j) + f i + f k = (∑ j, f j) + g i + g k := by
  -- through the function that has moved at `i` only
  have h₁ := sum_eq_of_eq_off (f := f) (g := Function.update g k (f k)) i fun j hj => by
    by_cases hjk : j = k
    · subst hjk
      simp
    · simp [Function.update_of_ne hjk, h j hj hjk]
  have h₂ := sum_eq_of_eq_off (f := Function.update g k (f k)) (g := g) k fun j hj => by
    simp [Function.update_of_ne hj]
  rw [Function.update_of_ne hik] at h₁
  rw [Function.update_self] at h₂
  calc (∑ j, g j) + f i + f k = ((∑ j, g j) + f k) + f i := add_right_comm _ _ _
    _ = ((∑ j, Function.update g k (f k) j) + f i) + g k := by rw [h₂, add_right_comm]
    _ = (∑ j, f j) + g i + g k := by rw [h₁]

/-- Two summands of a sum of naturals are at most the sum. -/
theorem add_le_sum {f : ι → ℕ} {i j : ι} (hij : i ≠ j) : f i + f j ≤ ∑ k, f k := by
  classical
  calc f i + f j = ∑ k ∈ {i, j}, f k := (Finset.sum_pair hij).symm
    _ ≤ ∑ k, f k := Finset.sum_le_sum_of_subset (Finset.subset_univ _)

theorem num_pos {f : ι → α} : 0 < num P f ↔ ∃ i, P (f i) := by
  simp [num, Finset.card_pos, Finset.filter_nonempty_iff]

theorem num_eq_zero {f : ι → α} : num P f = 0 ↔ ∀ i, ¬ P (f i) := by
  simp [num, Finset.filter_eq_empty_iff]

end Count
