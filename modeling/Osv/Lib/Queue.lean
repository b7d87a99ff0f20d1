import Mathlib
import Osv.Lib.Transition

/-!
# FIFO queues and ring windows

The abstract side of the queue proofs.  `Fifo.call cap` is a first-in first-out queue of at
most `cap` elements, as a machine in the sense of `Simulation`: a push fails exactly when the
queue is full, a pop exactly when it is empty, and a pop returns the oldest element.

`Fifo.spec` is the unbounded queue as a transition system, for implementations whose calls
interleave: each push and each pop takes effect in one step.  Along any of its executions the
elements popped, followed by those still queued, are the elements pushed, in order
(`Fifo.exec_spec`).

A ring buffer stores such a queue in `size` cells, `Ring.window cells start n` being the `n`
cells from position `start` on, counted modulo `size`.  Writing the cell just past the window
appends to it (`window_push`), and moving the start past the first cell removes that one
(`window_pop`), provided the window is shorter than the ring.  A position kept in a counter of
`m` values addresses the same cells when `size` divides `m` (`window_mod`).
-/

namespace Fifo

variable {α : Type*}

/-- The calls of a queue. -/
inductive Op (α : Type*) where
  | push (a : α)
  | pop

/-- The answer to a call: whether a push succeeded, what a pop returned. -/
inductive Result (α : Type*) where
  | pushed (ok : Bool)
  | popped (a : Option α)
  deriving DecidableEq, Repr

/-- One call of a queue of capacity `cap` holding `q`, oldest element first. -/
def call (cap : ℕ) (q : List α) : Op α → Result α × List α
  | .push a => if q.length < cap then (.pushed true, q ++ [a]) else (.pushed false, q)
  | .pop =>
      match q with
      | [] => (.popped none, [])
      | a :: q => (.popped (some a), q)

/-- A push uses one unit of a budget of pushes, a pop none. -/
def Op.pushes : Op α → ℕ
  | .push _ => 1
  | .pop => 0

/-! ### The unbounded queue as a transition system -/

/-- A call of the queue taking effect: a push, or a pop with what it returned. -/
inductive Event (α : Type*) where
  | push (a : α)
  | pop (result : Option α)

/-- One call taking effect on the queue `q`, oldest element first. -/
inductive Step : List α → Event α → List α → Prop
  | push (q : List α) (a : α) : Step q (.push a) (q ++ [a])
  | popSome (a : α) (q : List α) : Step (a :: q) (.pop (some a)) q
  | popNone : Step [] (.pop none) []

/-- The queue, initially empty. -/
def spec : Transition.System (List α) (Event α) where
  init q := q = []
  step := Step

/-- The element an event pushes. -/
def Event.pushed : Event α → Option α
  | .push a => some a
  | .pop _ => none

/-- The element an event pops. -/
def Event.popped : Event α → Option α
  | .push _ => none
  | .pop result => result

/-- **Nothing lost, nothing duplicated, nothing reordered.**  Along an execution from `q` to
`q'`, the elements popped followed by `q'` are `q` followed by the elements pushed. -/
theorem exec_spec {q q' : List α} {es : List (Event α)} (h : Transition.Exec spec q es q') :
    es.filterMap Event.popped ++ q' = q ++ es.filterMap Event.pushed := by
  induction h with
  | nil q => simp
  | cons hstep _ ih =>
      cases hstep with
      | push q a => simpa [List.filterMap_cons, Event.popped, Event.pushed] using ih
      | popSome a q => simpa [List.filterMap_cons, Event.popped, Event.pushed] using ih
      | popNone => simpa [List.filterMap_cons, Event.popped, Event.pushed] using ih

end Fifo

namespace Ring

variable {α : Type*} {size : ℕ} [NeZero size]

/-- The cell of the ring at position `j`, counted modulo `size`. -/
def slot (size : ℕ) [NeZero size] (j : ℕ) : Fin size :=
  ⟨j % size, Nat.mod_lt _ (Nat.pos_of_neZero size)⟩

/-- The `n` cells from position `start` on. -/
def window (cells : Fin size → α) (start n : ℕ) : List α :=
  (List.range n).map fun i => cells (slot size (start + i))

@[simp] theorem window_length (cells : Fin size → α) (start n : ℕ) :
    (window cells start n).length = n := by
  simp [window]

@[simp] theorem window_zero (cells : Fin size → α) (start : ℕ) : window cells start 0 = [] := rfl

theorem window_succ (cells : Fin size → α) (start n : ℕ) :
    window cells start (n + 1) = window cells start n ++ [cells (slot size (start + n))] := by
  simp [window, List.range_succ]

theorem window_pop (cells : Fin size → α) (start n : ℕ) :
    window cells start (n + 1) = cells (slot size start) :: window cells (start + 1) n := by
  simp only [window, List.range_succ_eq_map, List.map_cons, List.map_map, Nat.add_zero]
  congr 1
  refine List.map_congr_left fun i _ => ?_
  simp only [Function.comp, Nat.add_assoc, Nat.add_comm 1 i]

/-- Positions of a window shorter than the ring fall in distinct cells. -/
theorem slot_ne {start i n : ℕ} (hi : i < n) (hn : n < size) :
    slot size (start + i) ≠ slot size (start + n) := by
  intro h
  have hmod : (start + i) % size = (start + n) % size := Fin.mk.inj h
  have := Nat.sub_mod_eq_zero_of_mod_eq hmod.symm
  rw [show start + n - (start + i) = n - i by omega] at this
  have hle := Nat.le_of_dvd (by omega) (Nat.dvd_of_mod_eq_zero this)
  omega

/-- **Writing the cell past the window appends to the window.** -/
theorem window_push (cells : Fin size → α) (start : ℕ) {n : ℕ} (hn : n < size) (a : α) :
    window (Function.update cells (slot size (start + n)) a) start (n + 1) =
      window cells start n ++ [a] := by
  rw [window_succ, Function.update_self]
  congr 1
  refine List.map_congr_left fun i hi => ?_
  exact Function.update_of_ne (slot_ne (List.mem_range.mp hi) hn) a cells

/-- Positions that agree modulo the size fall in the same cell. -/
theorem slot_add_congr {a b : ℕ} (h : a % size = b % size) (i : ℕ) :
    slot size (a + i) = slot size (b + i) :=
  Fin.ext (by simp only [slot, Nat.add_mod a, Nat.add_mod b, h])

/-- A position kept modulo a multiple of the size addresses the same cell. -/
theorem slot_mod {m : ℕ} (hm : size ∣ m) (j : ℕ) : slot size (j % m) = slot size j :=
  Fin.ext (Nat.mod_mod_of_dvd j hm)

/-- **A counter that wraps at a multiple of the size** addresses the same window. -/
theorem window_mod (cells : Fin size → α) {m : ℕ} (hm : size ∣ m) (start n : ℕ) :
    window cells (start % m) n = window cells start n :=
  List.map_congr_left fun i _ => congrArg cells (slot_add_congr (Nat.mod_mod_of_dvd start hm) i)

end Ring
