import Mathlib.Data.List.Basic
import Mathlib.Data.Int.Notation
import Osv.Lib.Transition

/-!
# `pthread_once`

`libc/pthread.cc` runs `pthread_once` under one static `mutex m`, shared by every
`once_control`, with one list `waiterlist` of `waiter` records.  `*once_control` is `0` before
initialization, `1` while a thread runs `init_routine()` with `m` released, and `2` after.
A caller that finds `1` pushes a record on the front of `waiterlist` and waits in
`wait_until(m, ...)` until `*once_control != 1`; the initializing thread, with `m` taken
again, sets `2` and walks `waiterlist`, waking and unlinking the records of its
`once_control`.

The model has one step per critical section under `m`: the entry of `pthread_once`, the
return from `init_routine()` with the wake loop, and each wake-up of a waiter, which re-tests
the predicate of `wait_until` with `m` taken.  `wake()` marks a waiting thread woken; a
waiter that is never woken never runs again.  `started` and `completed` count the calls of
`init_routine()` and are ghost state.

**What holds** (`Once.Inv`, `inv_reachable`).  `init_routine` is started at most once per
`once_control`, by the one thread that found `0`, and every call that returns `0` does so
after it completed.

**What does not.**  After unlinking a record, the loop advances `p` past the record that took
its place, so of two adjacent records of the same `once_control` only the first is woken
(`wakeLoop_skips`).  Three threads on one `once_control` reach that order: the second waiter
stays blocked for good, its record left on the list (`pthread_once_waiter_never_woken`).
-/

namespace Osv.Libc

open Transition

variable {κ τ : Type*}

/-- `EINVAL` -/
def EINVAL : ℤ := 22

/-- A `struct waiter` of `waiterlist`. -/
structure Waiter (κ τ : Type*) where
  thread : τ
  onceControl : κ
deriving DecidableEq

/-- Where a thread is in `pthread_once`. -/
inductive OncePc (κ : Type*) where
  | idle
  /-- In `wait_until(m, ...)` for `once_control`; `woken` once `wake()` was called on it. -/
  | waiting (oc : κ) (woken : Bool)
  /-- In `init_routine()` for `once_control`, with `m` released. -/
  | initializing (oc : κ)
deriving DecidableEq

/-- The `once_control` words, `waiterlist` and the callers of `pthread_once`. -/
structure Once (κ τ : Type*) where
  control : κ → ℤ
  /-- `waiterlist`, from its head. -/
  waiterlist : List (Waiter κ τ)
  pc : τ → OncePc κ
  /-- Ghost: the calls of `init_routine()` started for each `once_control`. -/
  started : κ → ℕ
  /-- Ghost: the calls of `init_routine()` that returned. -/
  completed : κ → ℕ

/-- What a step shows: a call returning its result, or a thread blocking or starting
`init_routine()`. -/
inductive OnceLabel (κ τ : Type*) where
  | returned (t : τ) (oc : κ) (ret : ℤ)
  | blocked (t : τ) (oc : κ)
  | initializing (t : τ) (oc : κ)
  | internal

/-- A step: a thread calls `pthread_once`, a woken waiter runs, or `init_routine()` returns. -/
inductive OnceAction (κ τ : Type*) where
  | call (t : τ) (oc : κ)
  | resume (t : τ)
  | finish (t : τ)

/-- The loop `for (p = &waiterlist; *p; p = &((*p)->next))` of `pthread_once`: a record of
`once_control` is woken and unlinked (`*p = (*p)->next`), the loop stops if that left `*p`
null, and otherwise `p` moves on past the record now at `*p`.  Returns the threads woken and
the list left. -/
def wakeLoop [DecidableEq κ] (oc : κ) : List (Waiter κ τ) → List τ × List (Waiter κ τ)
  | [] => ([], [])
  | [w] => if w.onceControl = oc then ([w.thread], []) else ([], [w])
  | w :: w' :: rest =>
      if w.onceControl = oc then
        -- `w` is unlinked; `p` then points at `w'->next`, so `w'` is not examined
        ((w.thread :: (wakeLoop oc rest).1), w' :: (wakeLoop oc rest).2)
      else ((wakeLoop oc (w' :: rest)).1, w :: (wakeLoop oc (w' :: rest)).2)

section wakeLoop

variable [DecidableEq κ]

theorem wakeLoop_nil (oc : κ) : wakeLoop oc ([] : List (Waiter κ τ)) = ([], []) := rfl

theorem wakeLoop_singleton (oc : κ) (w : Waiter κ τ) :
    wakeLoop oc [w] = if w.onceControl = oc then ([w.thread], []) else ([], [w]) := rfl

theorem wakeLoop_cons_cons (oc : κ) (w w' : Waiter κ τ) (rest : List (Waiter κ τ)) :
    wakeLoop oc (w :: w' :: rest) =
      if w.onceControl = oc then (w.thread :: (wakeLoop oc rest).1, w' :: (wakeLoop oc rest).2)
      else ((wakeLoop oc (w' :: rest)).1, w :: (wakeLoop oc (w' :: rest)).2) := rfl

/-- The loop wakes only threads with a record of its `once_control`. -/
theorem mem_wakeLoop_woken {oc : κ} {l : List (Waiter κ τ)} {t : τ}
    (h : t ∈ (wakeLoop oc l).1) : ⟨t, oc⟩ ∈ l := by
  induction l using wakeLoop.induct oc with
  | case1 => simp [wakeLoop_nil] at h
  | case2 w hw =>
      simp only [wakeLoop_singleton, hw, if_true, List.mem_singleton] at h
      subst h
      simp [← hw]
  | case3 w hw => simp [wakeLoop_singleton, hw] at h
  | case4 w w' rest hw ih =>
      simp only [wakeLoop_cons_cons, hw, if_true, List.mem_cons] at h
      rcases h with rfl | h
      · simp [← hw]
      · exact List.mem_cons_of_mem _ (List.mem_cons_of_mem _ (ih h))
  | case5 w w' rest hw ih =>
      simp only [wakeLoop_cons_cons, hw, if_false] at h
      exact List.mem_cons_of_mem _ (ih h)

/-- The list left is a sublist of the list walked: the loop only unlinks. -/
theorem wakeLoop_kept_sublist (oc : κ) (l : List (Waiter κ τ)) : List.Sublist (wakeLoop oc l).2 l := by
  induction l using wakeLoop.induct oc with
  | case1 => simp [wakeLoop_nil]
  | case2 w hw => simp [wakeLoop_singleton, hw]
  | case3 w hw => simp [wakeLoop_singleton, hw]
  | case4 w w' rest hw ih =>
      simp only [wakeLoop_cons_cons, hw, if_true]
      exact (ih.cons_cons w').cons w
  | case5 w w' rest hw ih =>
      simp only [wakeLoop_cons_cons, hw, if_false]
      exact ih.cons_cons w

/-- A record of another `once_control` is never unlinked. -/
theorem mem_wakeLoop_kept {oc : κ} {l : List (Waiter κ τ)} {w : Waiter κ τ} (hw : w ∈ l)
    (hoc : w.onceControl ≠ oc) : w ∈ (wakeLoop oc l).2 := by
  induction l using wakeLoop.induct oc with
  | case1 => simp at hw
  | case2 w₀ h₀ =>
      rw [List.mem_singleton] at hw
      subst hw
      exact absurd h₀ hoc
  | case3 w₀ h₀ => simpa [wakeLoop_singleton, h₀] using hw
  | case4 w₀ w' rest h₀ ih =>
      simp only [wakeLoop_cons_cons, h₀, if_true, List.mem_cons] at hw ⊢
      rcases hw with rfl | rfl | hw
      · exact absurd h₀ hoc
      · exact .inl rfl
      · exact .inr (ih hw)
  | case5 w₀ w' rest h₀ ih =>
      simp only [wakeLoop_cons_cons, h₀, if_false, List.mem_cons] at hw ⊢
      rcases hw with rfl | hw
      · exact .inl rfl
      · exact .inr (ih (List.mem_cons.mpr hw))

/-- **The skipped record.**  Of two adjacent records of the loop's `once_control`, the second
is left on the list. -/
theorem wakeLoop_skips {oc : κ} (w w' : Waiter κ τ) (rest : List (Waiter κ τ))
    (hw : w.onceControl = oc) : w' ∈ (wakeLoop oc (w :: w' :: rest)).2 := by
  simp [wakeLoop_cons_cons, hw]

end wakeLoop

/-- What `thread::wake()` does to a thread: a waiting thread is marked woken; on any other
thread it does nothing. -/
def OncePc.wake : OncePc κ → OncePc κ
  | .waiting oc _ => .waiting oc true
  | p => p

@[simp] theorem OncePc.wake_eq_initializing {p : OncePc κ} {oc : κ} :
    p.wake = .initializing oc ↔ p = .initializing oc := by
  cases p <;> simp [OncePc.wake]

@[simp] theorem OncePc.wake_wake (p : OncePc κ) : p.wake.wake = p.wake := by
  cases p <;> rfl

namespace Once

variable [DecidableEq κ] [DecidableEq τ]

/-- Every `once_control` is `PTHREAD_ONCE_INIT`, `0`; no thread is in `pthread_once`. -/
def init : Once κ τ := ⟨fun _ => 0, [], fun _ => .idle, fun _ => 0, fun _ => 0⟩

/-- `thread::wake()` on thread `t`. -/
def wakeThread (pc : τ → OncePc κ) (t : τ) : τ → OncePc κ := Function.update pc t (pc t).wake

/-- The `wake()` calls of the loop, in order. -/
def wakeAll (ts : List τ) (pc : τ → OncePc κ) : τ → OncePc κ := ts.foldl wakeThread pc

/-- `*once_control = 1; m.unlock(); init_routine();` -/
def startInit (s : Once κ τ) (t : τ) (oc : κ) : Once κ τ :=
  { s with control := Function.update s.control oc 1,
           pc := Function.update s.pc t (.initializing oc),
           started := Function.update s.started oc (s.started oc + 1) }

/-- The entry of `pthread_once`, under `m`. -/
def call (s : Once κ τ) (t : τ) (oc : κ) : OnceLabel κ τ × Once κ τ :=
  if s.control oc = 2 then (.returned t oc 0, s)
  else if s.control oc = 1 then
    (.blocked t oc, { s with waiterlist := ⟨t, oc⟩ :: s.waiterlist,
                             pc := Function.update s.pc t (.waiting oc false) })
  else if s.control oc ≠ 0 then (.returned t oc EINVAL, s)
  else (.initializing t oc, s.startInit t oc)

/-- A woken waiter, with `m` taken again, re-tests `*once_control != 1`: it waits again, returns
`0`, or falls through to run `init_routine()` itself. -/
def resume (s : Once κ τ) (t : τ) (oc : κ) : OnceLabel κ τ × Once κ τ :=
  if s.control oc = 1 then (.internal, { s with pc := Function.update s.pc t (.waiting oc false) })
  else if s.control oc = 2 then (.returned t oc 0, { s with pc := Function.update s.pc t .idle })
  else (.initializing t oc, s.startInit t oc)

/-- `init_routine()` returned: under `m`, `*once_control = 2` and the wake loop. -/
def finish (s : Once κ τ) (t : τ) (oc : κ) : OnceLabel κ τ × Once κ τ :=
  (.returned t oc 0,
    { s with control := Function.update s.control oc 2,
             waiterlist := (wakeLoop oc s.waiterlist).2,
             pc := wakeAll (wakeLoop oc s.waiterlist).1 (Function.update s.pc t .idle),
             completed := Function.update s.completed oc (s.completed oc + 1) })

/-- One step, when the thread is where the action starts. -/
def exec (s : Once κ τ) : OnceAction κ τ → Option (OnceLabel κ τ × Once κ τ)
  | .call t oc => if s.pc t = .idle then some (s.call t oc) else none
  | .resume t =>
      match s.pc t with
      | .waiting oc true => some (s.resume t oc)
      | _ => none
  | .finish t =>
      match s.pc t with
      | .initializing oc => some (s.finish t oc)
      | _ => none

/-! ## Field lemmas -/

@[simp] theorem startInit_control (s : Once κ τ) (t : τ) (oc : κ) :
    (s.startInit t oc).control = Function.update s.control oc 1 := rfl
@[simp] theorem startInit_pc (s : Once κ τ) (t : τ) (oc : κ) :
    (s.startInit t oc).pc = Function.update s.pc t (.initializing oc) := rfl
@[simp] theorem startInit_started (s : Once κ τ) (t : τ) (oc : κ) :
    (s.startInit t oc).started = Function.update s.started oc (s.started oc + 1) := rfl
@[simp] theorem startInit_completed (s : Once κ τ) (t : τ) (oc : κ) :
    (s.startInit t oc).completed = s.completed := rfl
@[simp] theorem startInit_waiterlist (s : Once κ τ) (t : τ) (oc : κ) :
    (s.startInit t oc).waiterlist = s.waiterlist := rfl

omit [DecidableEq κ] in
theorem wakeAll_cons (t : τ) (ts : List τ) (pc : τ → OncePc κ) :
    wakeAll (t :: ts) pc = wakeAll ts (wakeThread pc t) := rfl

omit [DecidableEq κ] in
/-- After the `wake()` calls a thread is where it was, or woken there. -/
theorem wakeAll_cases (ts : List τ) (pc : τ → OncePc κ) (u : τ) :
    wakeAll ts pc u = pc u ∨ wakeAll ts pc u = (pc u).wake := by
  induction ts generalizing pc with
  | nil => exact .inl rfl
  | cons t ts ih =>
      have hone : wakeThread pc t u = pc u ∨ wakeThread pc t u = (pc u).wake := by
        rcases eq_or_ne u t with rfl | hne
        · exact .inr (Function.update_self ..)
        · exact .inl (Function.update_of_ne hne ..)
      rw [wakeAll_cons]
      rcases ih (wakeThread pc t) with h | h <;> rcases hone with h' | h' <;> simp [h, h']

omit [DecidableEq κ] in
theorem wakeAll_eq_initializing {ts : List τ} {pc : τ → OncePc κ} {u : τ} {oc : κ} :
    wakeAll ts pc u = .initializing oc ↔ pc u = .initializing oc := by
  rcases wakeAll_cases ts pc u with h | h <;> rw [h]
  exact OncePc.wake_eq_initializing

omit [DecidableEq κ] in
theorem wakeAll_of_not_mem {ts : List τ} {u : τ} (hu : u ∉ ts) (pc : τ → OncePc κ) :
    wakeAll ts pc u = pc u := by
  induction ts generalizing pc with
  | nil => rfl
  | cons t ts ih =>
      rw [List.mem_cons, not_or] at hu
      rw [wakeAll_cons, ih hu.2, wakeThread, Function.update_of_ne hu.1]

omit [DecidableEq κ] in
/-- A thread put at a place other than `init_routine()` leaves the initializing threads as
they were. -/
theorem initializing_of_update {pc : τ → OncePc κ} {t u : τ} {p : OncePc κ} {oc : κ}
    (hp : ∀ oc, p ≠ .initializing oc) (hu : Function.update pc t p u = .initializing oc) :
    u ≠ t ∧ pc u = .initializing oc := by
  rcases eq_or_ne u t with rfl | hne
  · exact absurd (by simpa using hu) (hp oc)
  · exact ⟨hne, by rwa [Function.update_of_ne hne] at hu⟩

/-! ## What a step can do -/

/-- Every step is an entry of `pthread_once`, a woken waiter's re-test, or the return of
`init_routine()`, each by a thread at the place it starts from. -/
theorem exec_cases {s s' : Once κ τ} {a : OnceAction κ τ} {l : OnceLabel κ τ}
    (h : s.exec a = some (l, s')) :
    (∃ t oc, s.pc t = .idle ∧ s.call t oc = (l, s')) ∨
      (∃ t oc, s.pc t = .waiting oc true ∧ s.resume t oc = (l, s')) ∨
      ∃ t oc, s.pc t = .initializing oc ∧ s.finish t oc = (l, s') := by
  cases a with
  | call t oc =>
      simp only [exec, Option.ite_none_right_eq_some, Option.some.injEq] at h
      exact .inl ⟨t, oc, h⟩
  | resume t =>
      cases hpc : s.pc t with
      | waiting oc woken =>
          cases woken with
          | true =>
              simp only [exec, hpc, Option.some.injEq] at h
              exact .inr (.inl ⟨t, oc, hpc, h⟩)
          | false => simp [exec, hpc] at h
      | idle => simp [exec, hpc] at h
      | initializing oc => simp [exec, hpc] at h
  | finish t =>
      cases hpc : s.pc t with
      | initializing oc =>
          simp only [exec, hpc, Option.some.injEq] at h
          exact .inr (.inr ⟨t, oc, hpc, h⟩)
      | idle => simp [exec, hpc] at h
      | waiting oc woken => simp [exec, hpc] at h

/-- The four outcomes of the entry of `pthread_once`. -/
theorem call_cases {s s' : Once κ τ} {t : τ} {oc : κ} {l : OnceLabel κ τ}
    (h : s.call t oc = (l, s')) :
    (s.control oc = 2 ∧ l = .returned t oc 0 ∧ s' = s) ∨
      (s.control oc = 1 ∧ l = .blocked t oc ∧
        s' = { s with waiterlist := ⟨t, oc⟩ :: s.waiterlist,
                      pc := Function.update s.pc t (.waiting oc false) }) ∨
      (s.control oc ≠ 0 ∧ s.control oc ≠ 1 ∧ s.control oc ≠ 2 ∧ l = .returned t oc EINVAL ∧
        s' = s) ∨
      (s.control oc = 0 ∧ l = .initializing t oc ∧ s' = s.startInit t oc) := by
  unfold call at h
  split_ifs at h with h2 h1 h0
  · exact .inl ⟨h2, (Prod.mk.inj h).1.symm, (Prod.mk.inj h).2.symm⟩
  · exact .inr (.inl ⟨h1, (Prod.mk.inj h).1.symm, (Prod.mk.inj h).2.symm⟩)
  · exact .inr (.inr (.inl ⟨h0, h1, h2, (Prod.mk.inj h).1.symm, (Prod.mk.inj h).2.symm⟩))
  · exact .inr (.inr (.inr ⟨not_not.mp h0, (Prod.mk.inj h).1.symm, (Prod.mk.inj h).2.symm⟩))

/-- The three outcomes of a woken waiter's re-test. -/
theorem resume_cases {s s' : Once κ τ} {t : τ} {oc : κ} {l : OnceLabel κ τ}
    (h : s.resume t oc = (l, s')) :
    (s.control oc = 1 ∧ l = .internal ∧
        s' = { s with pc := Function.update s.pc t (.waiting oc false) }) ∨
      (s.control oc = 2 ∧ l = .returned t oc 0 ∧ s' = { s with pc := Function.update s.pc t .idle }) ∨
      (s.control oc ≠ 1 ∧ s.control oc ≠ 2 ∧ l = .initializing t oc ∧ s' = s.startInit t oc) := by
  unfold resume at h
  split_ifs at h with h1 h2
  · exact .inl ⟨h1, (Prod.mk.inj h).1.symm, (Prod.mk.inj h).2.symm⟩
  · exact .inr (.inl ⟨h2, (Prod.mk.inj h).1.symm, (Prod.mk.inj h).2.symm⟩)
  · exact .inr (.inr ⟨h1, h2, (Prod.mk.inj h).1.symm, (Prod.mk.inj h).2.symm⟩)

/-! ## `init_routine` runs once -/

/-- **The invariant.**  Each `once_control` has been started at most once, its value says how
far its `init_routine()` got, and it is run by at most one thread. -/
structure Inv (s : Once κ τ) : Prop where
  started_le : ∀ oc, s.started oc ≤ 1
  completed_le : ∀ oc, s.completed oc ≤ s.started oc
  control_eq : ∀ oc,
    s.control oc = if s.started oc = 0 then 0 else if s.completed oc = 0 then 1 else 2
  initializer : ∀ t oc, s.pc t = .initializing oc → s.started oc = 1 ∧ s.completed oc = 0
  unique : ∀ t u oc, s.pc t = .initializing oc → s.pc u = .initializing oc → t = u

omit [DecidableEq κ] [DecidableEq τ] in
theorem inv_init : Inv (init : Once κ τ) where
  started_le _ := Nat.zero_le 1
  completed_le _ := Nat.le_refl _
  control_eq _ := rfl
  initializer _ _ h := by simp [init] at h
  unique _ _ _ h := by simp [init] at h

namespace Inv

variable {s : Once κ τ}

omit [DecidableEq κ] [DecidableEq τ] in
/-- A `once_control` at `2` has completed its `init_routine()`. -/
theorem completed_of_two (h : Inv s) {oc : κ} (hc : s.control oc = 2) : s.completed oc = 1 := by
  have hle := h.completed_le oc
  have hone := h.started_le oc
  have heq := h.control_eq oc
  split_ifs at heq <;> omega

omit [DecidableEq κ] [DecidableEq τ] in
/-- A `once_control` at neither `1` nor `2` has never been started. -/
theorem started_zero (h : Inv s) {oc : κ} (h1 : s.control oc ≠ 1) (h2 : s.control oc ≠ 2) :
    s.started oc = 0 := by
  have heq := h.control_eq oc
  split_ifs at heq with h0 <;> omega

omit [DecidableEq κ] [DecidableEq τ] in
theorem waiterlist (h : Inv s) (l : List (Waiter κ τ)) : Inv { s with waiterlist := l } :=
  ⟨h.1, h.2, h.3, h.4, h.5⟩

omit [DecidableEq κ] in
theorem setPc (h : Inv s) {t : τ} {p : OncePc κ} (hp : ∀ oc, p ≠ .initializing oc) :
    Inv { s with pc := Function.update s.pc t p } where
  started_le := h.started_le
  completed_le := h.completed_le
  control_eq := h.control_eq
  initializer u oc hu := h.initializer u oc (initializing_of_update hp hu).2
  unique u v oc hu hv :=
    h.unique u v oc (initializing_of_update hp hu).2 (initializing_of_update hp hv).2

/-- The thread that found `0` starts `init_routine()`. -/
theorem startInit (h : Inv s) {t : τ} {oc : κ} (ht : ∀ oc, s.pc t ≠ .initializing oc)
    (h0 : s.started oc = 0) : Inv (s.startInit t oc) := by
  have hc0 : s.completed oc = 0 := Nat.le_zero.mp (h0 ▸ h.completed_le oc)
  -- a thread other than `t` in `init_routine()` runs another `once_control`
  have hother : ∀ u oc', u ≠ t → s.pc u = .initializing oc' → oc' ≠ oc := by
    intro u oc' _ hu hoc
    subst hoc
    exact absurd (h.initializer u oc' hu).1 (by omega)
  constructor
  · intro oc'
    rcases eq_or_ne oc' oc with rfl | hne
    · simp [h0]
    · simpa [Function.update_of_ne hne] using h.started_le oc'
  · intro oc'
    rcases eq_or_ne oc' oc with rfl | hne
    · simp [hc0]
    · simpa [Function.update_of_ne hne] using h.completed_le oc'
  · intro oc'
    rcases eq_or_ne oc' oc with rfl | hne
    · simp [h0, hc0]
    · simp only [startInit_control, startInit_started, startInit_completed,
        Function.update_of_ne hne]
      exact h.control_eq oc'
  · intro u oc' hu
    rcases eq_or_ne u t with rfl | hne
    · obtain rfl : oc' = oc := by simpa using hu.symm
      simp [h0, hc0]
    · rw [startInit_pc, Function.update_of_ne hne] at hu
      have hne' := hother u oc' hne hu
      simpa [Function.update_of_ne hne'] using h.initializer u oc' hu
  · intro u v oc' hu hv
    by_cases hut : u = t <;> by_cases hvt : v = t
    · exact hut.trans hvt.symm
    · rw [hut] at hu
      rw [startInit_pc, Function.update_of_ne hvt] at hv
      obtain rfl : oc' = oc := by simpa using hu.symm
      exact absurd rfl (hother v oc' hvt hv)
    · rw [hvt] at hv
      rw [startInit_pc, Function.update_of_ne hut] at hu
      obtain rfl : oc' = oc := by simpa using hv.symm
      exact absurd rfl (hother u oc' hut hu)
    · rw [startInit_pc, Function.update_of_ne hut] at hu
      rw [startInit_pc, Function.update_of_ne hvt] at hv
      exact h.unique u v oc' hu hv

/-- The initializing thread completes: `*once_control = 2` and the wake loop. -/
theorem finish (h : Inv s) {t : τ} {oc : κ} (ht : s.pc t = .initializing oc) :
    Inv (s.finish t oc).2 := by
  obtain ⟨h1, h0⟩ := h.initializer t oc ht
  -- after the loop, a thread in `init_routine()` was there before, and is not `t`
  have hpc : ∀ u oc', (s.finish t oc).2.pc u = .initializing oc' →
      u ≠ t ∧ s.pc u = .initializing oc' := by
    intro u oc' hu
    have hu' := wakeAll_eq_initializing.mp hu
    exact initializing_of_update (fun _ h => by cases h) hu'
  have hother : ∀ u oc', (s.finish t oc).2.pc u = .initializing oc' → oc' ≠ oc := by
    intro u oc' hu hoc
    subst hoc
    obtain ⟨hne, hu'⟩ := hpc u oc' hu
    exact hne (h.unique u t oc' hu' ht)
  constructor
  · exact h.started_le
  · intro oc'
    rcases eq_or_ne oc' oc with rfl | hne
    · simp [Once.finish, h0, h1]
    · simpa [Once.finish, Function.update_of_ne hne] using h.completed_le oc'
  · intro oc'
    rcases eq_or_ne oc' oc with rfl | hne
    · simp [Once.finish, h0, h1]
    · simpa [Once.finish, Function.update_of_ne hne] using h.control_eq oc'
  · intro u oc' hu
    have hne := hother u oc' hu
    simpa [Once.finish, Function.update_of_ne hne] using h.initializer u oc' (hpc u oc' hu).2
  · intro u v oc' hu hv
    exact h.unique u v oc' (hpc u oc' hu).2 (hpc v oc' hv).2

/-- **Every step keeps the invariant.** -/
theorem step (h : Inv s) {a : OnceAction κ τ} {l : OnceLabel κ τ} {s' : Once κ τ}
    (hexec : s.exec a = some (l, s')) : Inv s' := by
  rcases exec_cases hexec with ⟨t, oc, hidle, hcall⟩ | ⟨t, oc, hw, hres⟩ | ⟨t, oc, hi, hfin⟩
  · have ht : ∀ oc, s.pc t ≠ .initializing oc := fun _ h' => by simp [hidle] at h'
    rcases call_cases hcall with ⟨-, -, rfl⟩ | ⟨-, -, rfl⟩ | ⟨-, -, -, -, rfl⟩ | ⟨h0, -, rfl⟩
    · exact h
    · exact (h.setPc fun _ h => by cases h).waiterlist _
    · exact h
    · exact h.startInit ht (h.started_zero (by omega) (by omega))
  · have ht : ∀ oc', s.pc t ≠ .initializing oc' := fun _ h' => by simp [hw] at h'
    rcases resume_cases hres with ⟨-, -, rfl⟩ | ⟨-, -, rfl⟩ | ⟨h1, h2, -, rfl⟩
    · exact h.setPc fun _ h => by cases h
    · exact h.setPc fun _ h => by cases h
    · exact h.startInit ht (h.started_zero h1 h2)
  · obtain rfl : s' = (s.finish t oc).2 := (congrArg Prod.snd hfin).symm
    exact h.finish hi

/-- A call returns only `0`, and only once `init_routine()` has completed. -/
theorem returned (h : Inv s) {a : OnceAction κ τ} {t : τ} {oc : κ} {ret : ℤ} {s' : Once κ τ}
    (hexec : s.exec a = some (.returned t oc ret, s')) : ret = 0 ∧ s'.completed oc = 1 := by
  rcases exec_cases hexec with ⟨u, oc', -, hcall⟩ | ⟨u, oc', -, hres⟩ | ⟨u, oc', hi, hfin⟩
  · rcases call_cases hcall with ⟨h2, hl, rfl⟩ | ⟨-, hl, -⟩ | ⟨h0, h1, h2, -, -⟩ | ⟨-, hl, -⟩
    · obtain ⟨rfl, rfl, rfl⟩ := OnceLabel.returned.inj hl
      exact ⟨rfl, h.completed_of_two h2⟩
    · cases hl
    · -- `EINVAL` needs a value outside `0, 1, 2`, which no step writes
      have heq := h.control_eq oc'
      rw [h.started_zero h1 h2] at heq
      exact absurd heq h0
    · cases hl
  · rcases resume_cases hres with ⟨-, hl, -⟩ | ⟨h2, hl, rfl⟩ | ⟨-, -, hl, -⟩
    · cases hl
    · obtain ⟨rfl, rfl, rfl⟩ := OnceLabel.returned.inj hl
      exact ⟨rfl, h.completed_of_two h2⟩
    · cases hl
  · obtain ⟨rfl, rfl, rfl⟩ := OnceLabel.returned.inj (congrArg Prod.fst hfin)
    obtain rfl : s' = (s.finish u oc').2 := (congrArg Prod.snd hfin).symm
    simp [Once.finish, (h.initializer u oc' hi).2]

end Inv

/-! ## A waiter that is never woken -/

/-- Thread `t` waits, unwoken, on `oc`, whose initialization has completed, and has records
for `oc` only, one of them still on the list: no wake loop can reach it any more. -/
structure Stuck (s : Once κ τ) (t : τ) (oc : κ) : Prop where
  waiting : s.pc t = .waiting oc false
  done : s.control oc = 2
  noInit : ∀ u, s.pc u ≠ .initializing oc
  recorded : ⟨t, oc⟩ ∈ s.waiterlist
  records : ∀ w ∈ s.waiterlist, w.thread = t → w.onceControl = oc

namespace Stuck

variable {s : Once κ τ} {t u : τ} {oc oc' : κ}

omit [DecidableEq κ] in
theorem setPc (h : Stuck s t oc) (hu : u ≠ t) {p : OncePc κ} (hp : p ≠ .initializing oc) :
    Stuck { s with pc := Function.update s.pc u p } t oc where
  waiting := by simpa [Function.update_of_ne hu.symm] using h.waiting
  done := h.done
  noInit v := by
    rcases eq_or_ne v u with rfl | hne
    · simpa using hp
    · simpa [Function.update_of_ne hne] using h.noInit v
  recorded := h.recorded
  records := h.records

omit [DecidableEq κ] in
/-- Another thread blocks, on any `once_control`. -/
theorem block (h : Stuck s t oc) (hu : u ≠ t) :
    Stuck { s with waiterlist := ⟨u, oc'⟩ :: s.waiterlist,
                   pc := Function.update s.pc u (.waiting oc' false) } t oc := by
  have hp := h.setPc hu (p := .waiting oc' false) (fun h => by cases h)
  refine ⟨hp.waiting, hp.done, hp.noInit, List.mem_cons_of_mem _ h.recorded, ?_⟩
  intro w hw hwt
  rcases List.mem_cons.mp hw with rfl | hw
  · exact absurd hwt hu
  · exact h.records w hw hwt

/-- Another thread starts the initialization of another `once_control`. -/
theorem startInit (h : Stuck s t oc) (hu : u ≠ t) (hoc : oc' ≠ oc) :
    Stuck (s.startInit u oc') t oc where
  waiting := by simp [Function.update_of_ne hu.symm, h.waiting]
  done := by simp [Function.update_of_ne hoc.symm, h.done]
  noInit v := by
    rcases eq_or_ne v u with rfl | hne
    · simp [hoc]
    · simp [Function.update_of_ne hne, h.noInit v]
  recorded := h.recorded
  records := h.records

/-- Another initialization completes: its wake loop unlinks and wakes records of its own
`once_control` only. -/
theorem finish (h : Stuck s t oc) (hi : s.pc u = .initializing oc') :
    Stuck (s.finish u oc').2 t oc := by
  have hoc : oc' ≠ oc := by
    rintro rfl
    exact h.noInit u hi
  have hu : u ≠ t := by
    rintro rfl
    simp [h.waiting] at hi
  have ht : t ∉ (wakeLoop oc' s.waiterlist).1 := fun ht =>
    hoc (h.records _ (mem_wakeLoop_woken ht) rfl)
  refine ⟨?_, ?_, ?_, ?_, ?_⟩
  · simp only [Once.finish]
    rw [wakeAll_of_not_mem ht, Function.update_of_ne hu.symm]
    exact h.waiting
  · simp [Once.finish, Function.update_of_ne hoc.symm, h.done]
  · intro v hv
    exact h.noInit v (initializing_of_update (fun _ h => by cases h)
      (wakeAll_eq_initializing.mp hv)).2
  · exact mem_wakeLoop_kept h.recorded hoc.symm
  · intro w hw hwt
    exact h.records w ((wakeLoop_kept_sublist oc' _).subset hw) hwt

/-- **No step wakes a stuck waiter.** -/
theorem step (h : Stuck s t oc) {a : OnceAction κ τ} {l : OnceLabel κ τ} {s' : Once κ τ}
    (hexec : s.exec a = some (l, s')) : Stuck s' t oc := by
  rcases exec_cases hexec with ⟨u, oc', hidle, hcall⟩ | ⟨u, oc', hw, hres⟩ | ⟨u, oc', hi, hfin⟩
  · have hu : u ≠ t := by
      rintro rfl
      simp [h.waiting] at hidle
    rcases call_cases hcall with ⟨-, -, rfl⟩ | ⟨-, -, rfl⟩ | ⟨-, -, -, -, rfl⟩ | ⟨h0, -, rfl⟩
    · exact h
    · exact h.block hu
    · exact h
    · refine h.startInit hu ?_
      rintro rfl
      simp [h.done] at h0
  · -- the stuck thread is not woken, so a woken waiter is another thread
    have hu : u ≠ t := by
      rintro rfl
      simp [h.waiting] at hw
    rcases resume_cases hres with ⟨-, -, rfl⟩ | ⟨-, -, rfl⟩ | ⟨-, h2, -, rfl⟩
    · exact h.setPc hu (fun h => by cases h)
    · exact h.setPc hu (fun h => by cases h)
    · refine h.startInit hu ?_
      rintro rfl
      exact h2 h.done
  · obtain rfl : s' = (s.finish u oc').2 := (congrArg Prod.snd hfin).symm
    exact h.finish hi

end Stuck

end Once

/-- `pthread_once` on `once_control` words `κ` by threads `τ`. -/
def pthreadOnce (κ τ : Type*) [DecidableEq κ] [DecidableEq τ] : System (Once κ τ) (OnceLabel κ τ) where
  init s := s = Once.init
  step s l s' := ∃ a, s.exec a = some (l, s')

/-- In every reachable state the invariant holds. -/
theorem inv_reachable [DecidableEq κ] [DecidableEq τ] {s : Once κ τ}
    (hs : Reachable (pthreadOnce κ τ) s) : s.Inv := by
  refine Inductive.reachable ⟨fun s hs => ?_, fun s l s' h hstep => ?_⟩ hs
  · rw [hs]
    exact Once.inv_init
  · obtain ⟨a, hexec⟩ := hstep
    exact h.step hexec

/-- **`init_routine` runs once.**  In every reachable state each `once_control` has had its
`init_routine()` started at most once, and started exactly when it left `0`; and every call of
`pthread_once` that returns, returns `0`, with that `init_routine()` completed. -/
theorem pthread_once_init_once [DecidableEq κ] [DecidableEq τ] {s : Once κ τ}
    (hs : Reachable (pthreadOnce κ τ) s) :
    (∀ oc, s.started oc ≤ 1 ∧ (s.started oc = 1 ↔ s.control oc ≠ 0)) ∧
      ∀ t oc ret s', (pthreadOnce κ τ).step s (.returned t oc ret) s' →
        ret = 0 ∧ s'.completed oc = 1 := by
  have h := inv_reachable hs
  refine ⟨fun oc => ⟨h.started_le oc, ?_⟩, fun t oc ret s' ⟨a, hexec⟩ => h.returned hexec⟩
  have heq := h.control_eq oc
  have hle := h.started_le oc
  split_ifs at heq <;> omega

/-- Thread `0` calls `pthread_once` on a fresh `once_control` and returns `0`, with the one
call of `init_routine()` completed. -/
theorem pthread_once_init_once_single :
    Reachable (pthreadOnce Unit Unit) Once.init ∧
      (pthreadOnce Unit Unit).step ((Once.init.call () ()).2) (.returned () () 0)
        ((Once.init.call () ()).2.finish () ()).2 ∧
      ((Once.init.call () ()).2.finish () ()).2.completed () = 1 := by
  have hs : Reachable (pthreadOnce Unit Unit) Once.init := .init rfl
  have hs₁ : Reachable (pthreadOnce Unit Unit) (Once.init.call () ()).2 := .step hs ⟨.call () (), rfl⟩
  have hstep : (pthreadOnce Unit Unit).step ((Once.init.call () ()).2) (.returned () () 0)
      ((Once.init.call () ()).2.finish () ()).2 := ⟨.finish (), rfl⟩
  exact ⟨hs, hstep, ((pthread_once_init_once hs₁).2 () () 0 _ hstep).2⟩

/-- **The skipped waiter.**  Thread `0` initializes a `once_control`; threads `1` and then `2`
block on it, so `waiterlist` is `2, 1`.  When `init_routine()` returns, the loop wakes and
unlinks `2` and steps past `1`.  From then on, whatever the threads do, `1` waits, unwoken,
with its record on the list. -/
theorem pthread_once_waiter_never_woken :
    ∃ s : Once Unit (Fin 3), Reachable (pthreadOnce Unit (Fin 3)) s ∧ s.control () = 2 ∧
      ∀ ls s', Exec (pthreadOnce Unit (Fin 3)) s ls s' →
        s'.pc 1 = .waiting () false ∧ ⟨1, ()⟩ ∈ s'.waiterlist := by
  have hs : Reachable (pthreadOnce Unit (Fin 3)) _ :=
    .step (.step (.step (.step (.init rfl) ⟨.call 0 (), rfl⟩) ⟨.call 1 (), rfl⟩)
      ⟨.call 2 (), rfl⟩) ⟨.finish 0, rfl⟩
  refine ⟨_, hs, rfl, fun ls s' hexec => ?_⟩
  have h := hexec.preserves (I := fun s => Once.Stuck s (1 : Fin 3) ())
    (fun _ _ _ h hst => by obtain ⟨_, ha⟩ := hst; exact h.step ha)
    ⟨rfl, rfl, by decide, by decide, by decide⟩
  exact ⟨h.waiting, h.recorded⟩

end Osv.Libc

