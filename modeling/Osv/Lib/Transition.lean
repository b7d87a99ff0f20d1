import Mathlib

/-!
# Labelled transition systems

A *system* is a predicate on initial states and a labelled step relation.  The results of this
development that speak about "every reachable state" are statements about `Reachable`, and
they are all proved the same way: the property, or a stronger one, is an **inductive
invariant** — it holds initially and every step preserves it (`Inductive.reachable`).

An implementation is compared with its specification by a **forward simulation**
(`Refines`): a relation between their states under which every step of the implementation is
matched by a step of the specification, or by none when the step is internal.  Every
execution of the implementation then shows, through `obs`, an execution of the specification
(`Refines.exec`).

Two further pieces serve concrete runs, executed step by step.  Code that is
deterministic once the label is fixed, and that may abort, is a step function
`σ → ℓ → Option σ`; `runFrom` executes a list of labels with it, and `reachable_of_runFrom`
turns a concrete run into a reachability fact.  A system whose steps are those of a function
returning a label and a state takes its runs through `reachable_of_runFrom_labelled`.
-/

namespace Transition

universe u v

variable {σ : Type u} {ℓ : Type v}

/-- A labelled transition system: initial states and a step relation. -/
structure System (σ : Type u) (ℓ : Type v) where
  init : σ → Prop
  step : σ → ℓ → σ → Prop

/-- The states reachable from an initial state by finitely many steps. -/
inductive Reachable (S : System σ ℓ) : σ → Prop
  | init {s : σ} : S.init s → Reachable S s
  | step {s t : σ} {l : ℓ} : Reachable S s → S.step s l t → Reachable S t

/-- A property that holds initially and that every step preserves. -/
structure Inductive (S : System σ ℓ) (I : σ → Prop) : Prop where
  init : ∀ s, S.init s → I s
  step : ∀ s l t, I s → S.step s l t → I t

/-- **The invariant rule.**  An inductive property holds in every reachable state. -/
theorem Inductive.reachable {S : System σ ℓ} {I : σ → Prop} (hI : Inductive S I) {s : σ}
    (hs : Reachable S s) : I s := by
  induction hs with
  | init h => exact hI.init _ h
  | step _ hstep ih => exact hI.step _ _ _ ih hstep

/-- A system with the same initial states and fewer steps reaches fewer states. -/
theorem Reachable.mono {S T : System σ ℓ} (hinit : ∀ s, S.init s → T.init s)
    (hstep : ∀ s l t, S.step s l t → T.step s l t) {s : σ} (hs : Reachable S s) :
    Reachable T s := by
  induction hs with
  | init h => exact .init (hinit _ h)
  | step _ hst ih => exact .step ih (hstep _ _ _ hst)

/-- The subsystem whose steps all carry a label satisfying `P`. -/
def System.restrict (S : System σ ℓ) (P : ℓ → Prop) : System σ ℓ where
  init := S.init
  step s l t := P l ∧ S.step s l t

/-! ## Executions and refinement -/

/-- An execution of `S` from `s` to `t` whose steps carry the labels `ls`. -/
inductive Exec (S : System σ ℓ) : σ → List ℓ → σ → Prop
  | nil (s : σ) : Exec S s [] s
  | cons {s t u : σ} {l : ℓ} {ls : List ℓ} : S.step s l t → Exec S t ls u → Exec S s (l :: ls) u

/-- **The invariant rule for executions.**  A property that every step preserves holds at the
end of every execution from a state that has it. -/
theorem Exec.preserves {S : System σ ℓ} {I : σ → Prop} (hI : ∀ s l t, I s → S.step s l t → I t)
    {s t : σ} {ls : List ℓ} (h : Exec S s ls t) (hs : I s) : I t := by
  induction h with
  | nil => exact hs
  | cons hst _ ih => exact ih (hI _ _ _ hs hst)

/-- **A state with no step ends every execution.**  From a state where no step is enabled,
every execution is the empty one: whatever is still owed there is never done. -/
theorem Exec.of_disabled {S : System σ ℓ} {s t : σ} {ls : List ℓ}
    (hs : ∀ l t, ¬ S.step s l t) (h : Exec S s ls t) : t = s := by
  cases h with
  | nil => rfl
  | cons hst _ => exact absurd hst (hs _ _)

/-- **Accounting along an execution.**  If every step from a state with `I` keeps `I` and
changes the measure `f` as its label says (`f` after the step plus what the label takes out
equals `f` before plus what it puts in), then at the end of an execution `f` plus all that the
labels took out is `f` at the start plus all that they put in. -/
theorem Exec.account {S : System σ ℓ} {I : σ → Prop} (f : σ → ℕ) (put take : ℓ → ℕ)
    (hI : ∀ s l t, I s → S.step s l t → I t)
    (hf : ∀ s l t, I s → S.step s l t → f t + take l = f s + put l)
    {s t : σ} {ls : List ℓ} (h : Exec S s ls t) (hs : I s) :
    f t + (ls.map take).sum = f s + (ls.map put).sum := by
  induction h with
  | nil => simp
  | cons hst _ ih =>
      have hstep := hf _ _ _ hs hst
      have hrest := ih (hI _ _ _ hs hst)
      simp only [List.map_cons, List.sum_cons]
      omega

/-- A step labelled `m` of `A`, or for `none` no step at all. -/
def System.StepOrStay {α μ : Type*} (A : System α μ) : Option μ → α → α → Prop
  | none, a, a' => a' = a
  | some m, a, a' => A.step a m a'

/-- `C` refines `A` through the relation `R`: related initial states exist, and a step of `C`
from a state related to `a` is matched by the step `obs l` of `A` from `a`. -/
structure Refines {α μ : Type*} (C : System σ ℓ) (A : System α μ) (obs : ℓ → Option μ)
    (R : σ → α → Prop) : Prop where
  init : ∀ s, C.init s → ∃ a, A.init a ∧ R s a
  step : ∀ s a l t, R s a → C.step s l t → ∃ a', A.StepOrStay (obs l) a a' ∧ R t a'

section Refines

variable {α μ : Type*} {C : System σ ℓ} {A : System α μ} {obs : ℓ → Option μ}
  {R : σ → α → Prop}

/-- **Executions are matched.**  An execution of `C` from a state related to `a` is matched by
an execution of `A` from `a` with the labels `C`'s steps show, ending in related states. -/
theorem Refines.exec (hR : Refines C A obs R) {s t : σ} {a : α} {ls : List ℓ} (hsa : R s a)
    (h : Exec C s ls t) : ∃ a', Exec A a (ls.filterMap obs) a' ∧ R t a' := by
  induction h generalizing a with
  | nil s => exact ⟨a, .nil a, hsa⟩
  | @cons s t u l ls hst _ ih =>
      obtain ⟨b, hb, htb⟩ := hR.step s a l t hsa hst
      obtain ⟨a', hexec, hua⟩ := ih htb
      refine ⟨a', ?_, hua⟩
      cases hobs : obs l with
      | none =>
          rw [hobs] at hb
          subst hb
          rwa [List.filterMap_cons_none hobs]
      | some m =>
          rw [hobs] at hb
          rw [List.filterMap_cons_some hobs]
          exact .cons hb hexec

/-- Every execution of `C` from an initial state shows an execution of `A` from an initial
state. -/
theorem Refines.trace (hR : Refines C A obs R) {s t : σ} {ls : List ℓ} (hs : C.init s)
    (h : Exec C s ls t) : ∃ a a', A.init a ∧ Exec A a (ls.filterMap obs) a' ∧ R t a' := by
  obtain ⟨a, ha, hsa⟩ := hR.init s hs
  obtain ⟨a', hexec, hta⟩ := hR.exec hsa h
  exact ⟨a, a', ha, hexec, hta⟩

end Refines

/-! ## Runs of a step function -/

/-- Execute a list of labels with a fallible step function, from state `s`. -/
def runFrom (next : σ → ℓ → Option σ) : σ → List ℓ → Option σ
  | s, [] => some s
  | s, l :: ls => (next s l).bind fun t => runFrom next t ls

@[simp] theorem runFrom_nil (next : σ → ℓ → Option σ) (s : σ) : runFrom next s [] = some s :=
  rfl

theorem runFrom_cons (next : σ → ℓ → Option σ) (s : σ) (l : ℓ) (ls : List ℓ) :
    runFrom next s (l :: ls) = (next s l).bind fun t => runFrom next t ls :=
  rfl

theorem runFrom_append (next : σ → ℓ → Option σ) (s : σ) (ls ms : List ℓ) :
    runFrom next s (ls ++ ms) = (runFrom next s ls).bind fun t => runFrom next t ms := by
  induction ls generalizing s with
  | nil => rfl
  | cons l ls ih =>
      simp only [List.cons_append, runFrom_cons]
      cases next s l with
      | none => rfl
      | some t => exact ih t

/-- The system whose steps are exactly the successful steps of `next`. -/
def System.ofFun (init : σ → Prop) (next : σ → ℓ → Option σ) : System σ ℓ where
  init := init
  step s l t := next s l = some t

/-- A run of the step function from a reachable state ends in a reachable state. -/
theorem reachable_of_runFrom {init : σ → Prop} {next : σ → ℓ → Option σ} {s t : σ}
    (hs : Reachable (System.ofFun init next) s) :
    ∀ {ls : List ℓ}, runFrom next s ls = some t → Reachable (System.ofFun init next) t := by
  intro ls
  induction ls generalizing s with
  | nil =>
      intro h
      cases h
      exact hs
  | cons l ls ih =>
      intro h
      rw [runFrom_cons] at h
      cases hnext : next s l with
      | none => simp [hnext] at h
      | some u =>
          rw [hnext] at h
          exact ih (Reachable.step hs hnext) h

/-- **Runs of a labelled step function.**  When every successful step of `f` is a step of `S`, a
run of `f`'s actions from a reachable state, its labels dropped, ends in a reachable state. -/
theorem reachable_of_runFrom_labelled {α : Type*} {S : System σ ℓ} {f : σ → α → Option (ℓ × σ)}
    (hf : ∀ s a l t, f s a = some (l, t) → S.step s l t) {s t : σ} (hs : Reachable S s) :
    ∀ {as : List α}, runFrom (fun s a => (f s a).map Prod.snd) s as = some t → Reachable S t := by
  intro as
  induction as generalizing s with
  | nil =>
      intro h
      cases h
      exact hs
  | cons a as ih =>
      intro h
      rw [runFrom_cons] at h
      cases hfa : f s a with
      | none => simp [hfa] at h
      | some p =>
          rw [hfa, Option.map_some, Option.bind_some] at h
          exact ih (Reachable.step hs (hf s a p.1 p.2 hfa)) h

end Transition
