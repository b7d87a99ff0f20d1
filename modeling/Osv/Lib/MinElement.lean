import Mathlib.Data.List.Basic

/-!
# `std::min_element` with an arbitrary comparator

`std::min_element(first, last, comp)` takes the first element as the smallest so far and
replaces it by each later element `x` with `comp(x, smallest)`; on an empty range it returns
`last`, here `none`.

The result is an element of the range (`minElement_mem`), and it has every property of the
first element that `comp` hands on to whatever beats it (`minElement_induction`).  When `comp`
is irreflexive and transitive, nothing in the range compares below the result
(`minElement_minimal`).  Nothing more follows without incomparability being transitive as well:
which of two incomparable elements is kept depends on where they stand.
-/

namespace MinElement

variable {α : Type*} (comp : α → α → Bool)

/-- One turn of the loop: `x` replaces the smallest so far `s` when `comp(x, s)`. -/
def minStep (s x : α) : α := if comp x s then x else s

/-- `std::min_element(l.begin(), l.end(), comp)` -/
def minElement : List α → Option α
  | [] => none
  | a :: l => some (l.foldl (minStep comp) a)

theorem minStep_eq_or (s x : α) :
    minStep comp s x = x ∧ comp x s ∨ minStep comp s x = s ∧ ¬ comp x s := by
  unfold minStep
  by_cases h : comp x s
  · exact Or.inl ⟨if_pos h, h⟩
  · exact Or.inr ⟨if_neg h, h⟩

variable {comp}

theorem foldl_minStep_mem : ∀ (l : List α) (s : α), l.foldl (minStep comp) s ∈ s :: l
  | [], s => List.mem_singleton_self s
  | x :: l, s => by
    rw [List.foldl_cons]
    rcases List.mem_cons.mp (foldl_minStep_mem l (minStep comp s x)) with h | h
    · rcases minStep_eq_or comp s x with ⟨hx, -⟩ | ⟨hs, -⟩
      · rw [h, hx]
        exact List.mem_cons_of_mem s List.mem_cons_self
      · rw [h, hs]
        exact List.mem_cons_self
    · exact List.mem_cons_of_mem s (List.mem_cons_of_mem x h)

theorem minElement_mem {l : List α} {m : α} (h : minElement comp l = some m) : m ∈ l := by
  cases l with
  | nil => cases h
  | cons a l =>
    rw [minElement, Option.some.injEq] at h
    exact h ▸ foldl_minStep_mem l a

/-- **Induction over the loop**: a property of the first element that passes to every element
that beats one having it holds of the result. -/
theorem foldl_minStep_induction (P : α → Prop) (hstep : ∀ s x, P s → comp x s → P x) :
    ∀ (l : List α) (s : α), P s → P (l.foldl (minStep comp) s)
  | [], _, hs => hs
  | x :: l, s, hs => by
    rw [List.foldl_cons]
    apply foldl_minStep_induction P hstep l
    rcases minStep_eq_or comp s x with ⟨hx, hc⟩ | ⟨hs', -⟩
    · rw [hx]
      exact hstep s x hs hc
    · rw [hs']
      exact hs

theorem minElement_induction (P : α → Prop) (hstep : ∀ s x, P s → comp x s → P x) {a : α}
    {l : List α} {m : α} (h : minElement comp (a :: l) = some m) (ha : P a) : P m := by
  rw [minElement, Option.some.injEq] at h
  exact h ▸ foldl_minStep_induction P hstep l a ha

section Order

variable (trans : ∀ x y z, comp x y → comp y z → comp x z)
include trans

/-- The result is the start or beats it. -/
theorem foldl_minStep_eq_or_lt : ∀ (l : List α) (s : α),
    l.foldl (minStep comp) s = s ∨ comp (l.foldl (minStep comp) s) s
  | [], _ => Or.inl rfl
  | x :: l, s => by
    rw [List.foldl_cons]
    rcases minStep_eq_or comp s x with ⟨hx, hc⟩ | ⟨hs, -⟩
    · rw [hx]
      rcases foldl_minStep_eq_or_lt l x with h | h
      · rw [h]
        exact Or.inr hc
      · exact Or.inr (trans _ _ _ h hc)
    · rw [hs]
      exact foldl_minStep_eq_or_lt l s

variable (irrefl : ∀ x, comp x x = false)
include irrefl

/-- **Nothing compares below the result** of a strict partial order's loop. -/
theorem foldl_minStep_minimal : ∀ (l : List α) (s : α),
    ∀ y ∈ s :: l, comp y (l.foldl (minStep comp) s) = false
  | [], s, y, hy => by
    rw [List.mem_singleton.mp hy]
    exact irrefl s
  | x :: l, s, y, hy => by
    rw [List.foldl_cons]
    have ih := foldl_minStep_minimal l (minStep comp s x)
    have hle := foldl_minStep_eq_or_lt trans l (minStep comp s x)
    rcases List.mem_cons.mp hy with rfl | hy
    · -- the start: if it were below the result it would be below the step it lost to
      rcases minStep_eq_or comp y x with ⟨hx, hc⟩ | ⟨hs, -⟩
      · rw [hx] at ih hle ⊢
        rw [Bool.eq_false_iff]
        intro hy'
        rcases hle with h | h
        · rw [h] at hy'
          exact absurd (irrefl y) (by rw [trans _ _ _ hy' hc]; decide)
        · exact absurd (irrefl y) (by rw [trans _ _ _ (trans _ _ _ hy' h) hc]; decide)
      · rw [hs] at ih ⊢
        exact ih y List.mem_cons_self
    rcases List.mem_cons.mp hy with rfl | hy
    · rcases minStep_eq_or comp s y with ⟨hx, -⟩ | ⟨hs, hc⟩
      · rw [hx] at ih ⊢
        exact ih y List.mem_cons_self
      · -- an element that lost to the start is not below what beats the start
        rw [hs] at ih hle ⊢
        rw [Bool.eq_false_iff]
        intro hy'
        rcases hle with h | h
        · rw [h] at hy'
          exact hc hy'
        · exact hc (trans _ _ _ hy' h)
    · exact ih y (List.mem_cons_of_mem _ hy)

theorem minElement_minimal {l : List α} {m : α} (h : minElement comp l = some m) :
    ∀ y ∈ l, comp y m = false := by
  cases l with
  | nil => cases h
  | cons a l =>
    rw [minElement, Option.some.injEq] at h
    exact h ▸ foldl_minStep_minimal trans irrefl l a

end Order

end MinElement
