import Mathlib.Data.List.Nodup
import Mathlib.Logic.Function.Iterate

/-!
# Lists threaded through a table of links

A table of cells whose `next` field is an index into the same table, with no null index: code
that keeps a free list and its allocated lists in one array of descriptors.  Two kinds of list
are read off such a table.

* `walk next p n` is the `n` cells visited from `p`: a list whose length is kept beside it (a
  free list with a count).
* `IsChain more next p l` says that following `next` from `p` while `more` holds visits `l`: a
  list whose last cell is marked (a chain whose last cell lacks a "continues" flag).
  `follow` computes it with fuel, and agrees with it when the fuel suffices (`follow_of_isChain`).

The lemmas are the frame rules (a write to a cell off the list keeps it: `walk_update`,
`IsChain.congr`), the split of a walk (`walk_add`), and the two moves of an allocator that
threads both kinds through one table: a walk whose cells are marked is a chain
(`isChain_walk`), and a chain whose last cell is linked to the head of a walk is the front of a
longer walk (`IsChain.walk_relink`).
-/

namespace Threaded

variable {ι : Type*} {next : ι → ι} {more : ι → Bool} {p x : ι} {l : List ι}

/-! ## Walks -/

/-- The `n` cells visited from `p`. -/
def walk (next : ι → ι) : ι → ℕ → List ι
  | _, 0 => []
  | p, n + 1 => p :: walk next (next p) n

@[simp] theorem walk_zero (next : ι → ι) (p : ι) : walk next p 0 = [] := rfl

theorem walk_succ (next : ι → ι) (p : ι) (n : ℕ) : walk next p (n + 1) = p :: walk next (next p) n :=
  rfl

@[simp] theorem length_walk (next : ι → ι) (p : ι) (n : ℕ) : (walk next p n).length = n := by
  induction n generalizing p with
  | zero => rfl
  | succ n ih => rw [walk_succ, List.length_cons, ih]

/-- A walk of `k + m` steps is `k` steps, then `m` from where they end. -/
theorem walk_add (next : ι → ι) (p : ι) (k m : ℕ) :
    walk next p (k + m) = walk next p k ++ walk next (next^[k] p) m := by
  induction k generalizing p with
  | zero => rw [Nat.zero_add, walk_zero, List.nil_append, Function.iterate_zero, id]
  | succ k ih =>
      rw [Nat.add_right_comm, walk_succ, walk_succ, ih, Function.iterate_succ_apply, List.cons_append]

/-- A walk of `n + 1` steps ends in the cell `n` links on. -/
theorem walk_succ_right (next : ι → ι) (p : ι) (n : ℕ) :
    walk next p (n + 1) = walk next p n ++ [next^[n] p] := by
  rw [walk_add, walk_succ, walk_zero]

theorem take_walk (next : ι → ι) (p : ι) {k n : ℕ} (h : k ≤ n) :
    (walk next p n).take k = walk next p k := by
  obtain ⟨m, rfl⟩ := Nat.exists_eq_add_of_le h
  rw [walk_add, List.take_left' (length_walk next p k)]

theorem drop_walk (next : ι → ι) (p : ι) {k n : ℕ} (h : k ≤ n) :
    (walk next p n).drop k = walk next (next^[k] p) (n - k) := by
  obtain ⟨m, rfl⟩ := Nat.exists_eq_add_of_le h
  rw [walk_add, List.drop_left' (length_walk next p k), Nat.add_sub_cancel_left]

/-- **Frame rule.**  Writing the link of a cell off the walk keeps the walk. -/
theorem walk_update [DecidableEq ι] {n : ℕ} (h : x ∉ walk next p n) (v : ι) :
    walk (Function.update next x v) p n = walk next p n := by
  induction n generalizing p with
  | zero => rfl
  | succ n ih =>
      rw [walk_succ, List.mem_cons, not_or] at h
      rw [walk_succ, walk_succ, Function.update_of_ne (Ne.symm h.1), ih h.2]

/-! ## Marked chains -/

/-- Following `next` from `p` while `more` holds visits `l`: the last cell of `l` is the first
one without `more`. -/
inductive IsChain (more : ι → Bool) (next : ι → ι) : ι → List ι → Prop
  | last {p : ι} : more p = false → IsChain more next p [p]
  | cons {p : ι} {l : List ι} : more p = true → IsChain more next (next p) l →
      IsChain more next p (p :: l)

/-- The chain from `p`, computed with `fuel` links to follow. -/
def follow (more : ι → Bool) (next : ι → ι) : ℕ → ι → List ι
  | 0, p => [p]
  | fuel + 1, p => p :: if more p then follow more next fuel (next p) else []

theorem follow_succ (more : ι → Bool) (next : ι → ι) (fuel : ℕ) (p : ι) :
    follow more next (fuel + 1) p = p :: if more p then follow more next fuel (next p) else [] := rfl

theorem length_follow_le (more : ι → Bool) (next : ι → ι) :
    ∀ (fuel : ℕ) (p : ι), (follow more next fuel p).length ≤ fuel + 1
  | 0, _ => Nat.le_refl _
  | fuel + 1, p => by
      rw [follow_succ, List.length_cons]
      split
      · exact Nat.succ_le_succ (length_follow_le more next fuel (next p))
      · exact Nat.succ_le_succ (Nat.zero_le _)

theorem follow_ne_nil (more : ι → Bool) (next : ι → ι) (fuel : ℕ) (p : ι) :
    follow more next fuel p ≠ [] := by
  cases fuel <;> exact List.cons_ne_nil _ _

theorem IsChain.ne_nil (h : IsChain more next p l) : l ≠ [] := by
  cases h <;> exact List.cons_ne_nil _ _

theorem IsChain.head_mem (h : IsChain more next p l) : p ∈ l := by
  cases h <;> exact List.mem_cons_self

/-- The chain from a cell is unique. -/
theorem IsChain.unique {l' : List ι} (h : IsChain more next p l) (h' : IsChain more next p l') :
    l = l' := by
  induction h generalizing l' with
  | last hp =>
      cases h' with
      | last _ => rfl
      | cons hp' _ => rw [hp] at hp'; cases hp'
  | cons hp _ ih =>
      cases h' with
      | last hp' => rw [hp] at hp'; cases hp'
      | cons _ h'' => rw [ih h'']

/-- **The scan computes the chain** once the fuel covers its links. -/
theorem follow_of_isChain (h : IsChain more next p l) {fuel : ℕ} (hfuel : l.length ≤ fuel + 1) :
    follow more next fuel p = l := by
  induction h generalizing fuel with
  | @last p hp =>
      cases fuel with
      | zero => rfl
      | succ fuel => rw [follow_succ, hp, if_neg Bool.false_ne_true]
  | @cons p l hp hl ih =>
      cases fuel with
      | zero =>
          rw [List.length_cons] at hfuel
          exact absurd (List.length_eq_zero_iff.mp (by omega)) hl.ne_nil
      | succ fuel =>
          rw [List.length_cons] at hfuel
          rw [follow_succ, hp, if_pos rfl, ih (by omega)]

/-- **Frame rule.**  Writes to cells off the chain keep it. -/
theorem IsChain.congr {more' : ι → Bool} {next' : ι → ι} (h : IsChain more next p l)
    (hmore : ∀ y ∈ l, more' y = more y) (hnext : ∀ y ∈ l, next' y = next y) :
    IsChain more' next' p l := by
  induction h with
  | last hp => exact .last ((hmore _ List.mem_cons_self).trans hp)
  | @cons p l hp _ ih =>
      refine .cons ((hmore _ List.mem_cons_self).trans hp) ?_
      rw [hnext _ List.mem_cons_self]
      exact ih (fun y hy => hmore y (List.mem_cons_of_mem _ hy))
        (fun y hy => hnext y (List.mem_cons_of_mem _ hy))

/-- **A marked walk is a chain.**  If the first `n` cells of a walk have `more` and the next
one has not, the `n + 1` cells are the chain from its start. -/
theorem isChain_walk (n : ℕ) (p : ι) (hmore : ∀ y ∈ walk next p n, more y = true)
    (hlast : more (next^[n] p) = false) : IsChain more next p (walk next p (n + 1)) := by
  induction n generalizing p with
  | zero => exact .last hlast
  | succ n ih =>
      rw [walk_succ] at hmore ⊢
      refine .cons (hmore p List.mem_cons_self) (ih (next p) (fun y hy => hmore y ?_) hlast)
      exact List.mem_cons_of_mem _ hy

/-- **Relinking a chain in front of a walk.**  Once the last cell of a chain links to `a`, the
walk from the chain's start runs through the chain and on from `a`. -/
theorem IsChain.walk_relink [DecidableEq ι] (h : IsChain more next p l) (hnd : l.Nodup) (a : ι)
    (m : ℕ) :
    walk (Function.update next (l.getLast h.ne_nil) a) p (l.length + m) =
      l ++ walk (Function.update next (l.getLast h.ne_nil) a) a m := by
  induction h with
  | @last p _ =>
      rw [List.length_singleton, Nat.add_comm, walk_succ]
      simp only [List.getLast_singleton, Function.update_self, List.singleton_append]
  | @cons p l _ hl ih =>
      have hp : p ∉ l := (List.nodup_cons.mp hnd).1
      have hne : p ≠ l.getLast hl.ne_nil := fun he => hp (he ▸ List.getLast_mem hl.ne_nil)
      rw [List.length_cons, Nat.add_right_comm, walk_succ]
      simp only [List.getLast_cons hl.ne_nil, Function.update_of_ne hne, List.cons_append]
      rw [ih (List.nodup_cons.mp hnd).2]

end Threaded
