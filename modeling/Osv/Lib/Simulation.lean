import Mathlib

/-!
# Machines with outputs, and simulations between them

A *machine* answers each input with an output and a new state: `σ → ι → ο × σ`.  `run`
feeds it a list of inputs and collects the outputs.  Two machines that answer the same inputs
alike are compared by a **simulation**: a relation between their states under which one input
gives equal outputs and related successor states (`Simulation.run_eq`).

Some implementations are only faithful for a while (a counter that must not wrap, a budget of
allocations): a **budgeted simulation** relates states together with the budget `k` still
available, and each input costs some of it (`Budgeted.run_eq`).  A run whose total cost fits
the initial budget is answered alike throughout.

Runs that repeat one block of inputs are evaluated from one pass of the block
(`run_iterate`), so that a proof never executes a long run step by step.
-/

namespace Simulation

variable {σ τ ι ο : Type*}

/-- Feed the inputs to the machine, collecting its outputs. -/
def run (step : σ → ι → ο × σ) : σ → List ι → List ο × σ
  | s, [] => ([], s)
  | s, i :: is =>
      let r := step s i
      let rest := run step r.2 is
      (r.1 :: rest.1, rest.2)

@[simp] theorem run_nil (step : σ → ι → ο × σ) (s : σ) : run step s [] = ([], s) := rfl

theorem run_cons (step : σ → ι → ο × σ) (s : σ) (i : ι) (is : List ι) :
    run step s (i :: is) =
      ((step s i).1 :: (run step (step s i).2 is).1, (run step (step s i).2 is).2) := rfl

theorem run_append (step : σ → ι → ο × σ) (s : σ) (is js : List ι) :
    run step s (is ++ js) =
      ((run step s is).1 ++ (run step (run step s is).2 js).1,
        (run step (run step s is).2 js).2) := by
  induction is generalizing s with
  | nil => rfl
  | cons i is ih =>
      rw [List.cons_append, run_cons, run_cons, ih]
      rfl

/-- The state after two runs in a row. -/
theorem run_append_snd (step : σ → ι → ο × σ) (s : σ) (is js : List ι) :
    (run step s (is ++ js)).2 = (run step (run step s is).2 js).2 := by
  rw [run_append]

/-- **Iterating a block.**  If one pass of the inputs `is` takes the `k`-th state of a family
to the `k + 1`-th with the outputs `os k`, for each `k < n`, then `n` passes take the `0`-th
state to the `n`-th, with the outputs of the passes one after the other. -/
theorem run_iterate (step : σ → ι → ο × σ) (f : ℕ → σ) (is : List ι) (os : ℕ → List ο) (n : ℕ)
    (hblock : ∀ k < n, run step (f k) is = (os k, f (k + 1))) :
    run step (f 0) (List.replicate n is).flatten = ((List.range n).flatMap os, f n) := by
  induction n with
  | zero => rfl
  | succ n ih =>
      rw [List.replicate_succ', List.flatten_append, run_append,
        ih fun k hk => hblock k (Nat.lt_succ_of_lt hk), List.flatten_singleton,
        hblock n (Nat.lt_succ_self n), List.range_succ, List.flatMap_append,
        List.flatMap_singleton]

/-- A relation under which the two machines answer every input alike. -/
def IsSimulation (C : σ → ι → ο × σ) (A : τ → ι → ο × τ) (R : σ → τ → Prop) : Prop :=
  ∀ s t i, R s t → (C s i).1 = (A t i).1 ∧ R (C s i).2 (A t i).2

/-- **Simulation.**  Related states answer every run alike and stay related. -/
theorem run_eq {C : σ → ι → ο × σ} {A : τ → ι → ο × τ} {R : σ → τ → Prop}
    (h : IsSimulation C A R) :
    ∀ (is : List ι) {s t}, R s t → (run C s is).1 = (run A t is).1 ∧ R (run C s is).2 (run A t is).2
  | [], _, _, hr => ⟨rfl, hr⟩
  | i :: is, s, t, hr => by
      obtain ⟨hout, hr'⟩ := h s t i hr
      obtain ⟨hrest, hend⟩ := run_eq h is hr'
      rw [run_cons, run_cons, hout, hrest]
      exact ⟨rfl, hend⟩

/-- A simulation that holds while a budget lasts: states are related together with the budget
`k` still available, and the input `i` uses `cost i` of it. -/
def Budgeted (C : σ → ι → ο × σ) (A : τ → ι → ο × τ) (cost : ι → ℕ)
    (R : ℕ → σ → τ → Prop) : Prop :=
  ∀ k s t i, R (k + cost i) s t → (C s i).1 = (A t i).1 ∧ R k (C s i).2 (A t i).2

/-- **Budgeted simulation.**  A run whose inputs cost no more than the budget is answered
alike. -/
theorem Budgeted.run_eq {C : σ → ι → ο × σ} {A : τ → ι → ο × τ} {cost : ι → ℕ}
    {R : ℕ → σ → τ → Prop} (h : Budgeted C A cost R) :
    ∀ (is : List ι) (k : ℕ) {s t}, R (k + (is.map cost).sum) s t →
      (run C s is).1 = (run A t is).1 ∧ R k (run C s is).2 (run A t is).2
  | [], _, _, _, hr => ⟨rfl, hr⟩
  | i :: is, k, s, t, hr => by
      have hr₀ : R (k + (is.map cost).sum + cost i) s t := by
        rwa [List.map_cons, List.sum_cons, Nat.add_comm (cost i), ← Nat.add_assoc] at hr
      obtain ⟨hout, hr'⟩ := h _ s t i hr₀
      obtain ⟨hrest, hend⟩ := Budgeted.run_eq h is k hr'
      rw [run_cons, run_cons, hout, hrest]
      exact ⟨rfl, hend⟩

end Simulation
