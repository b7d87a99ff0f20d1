import Mathlib.Logic.Function.Basic
import Mathlib.Data.List.Basic

/-!
# Singly linked lists in a heap

A heap of cells, each with a `next` field: `next : ι → Option ι`, `none` standing for the null
pointer.  `Chain next p l` says that following `next` from `p` visits the cells `l`, in order,
and then reaches `none`; `Reaches next p x` that it visits `x`.

The chain from a pointer is unique (`Chain.unique`), so a state of cells and pointers denotes
its lists.  A write to a cell off a chain leaves the chain as it is (`Chain.update`): this is
the frame rule the proofs of pointer-manipulating code use at every store.

A *segment* `Seg next p l q` is a chain that stops at the pointer `q` instead of `none`.  Code
that splices cells out of a list keeps a segment to the cell before the splice: redirecting
that segment's last cell (`Seg.relink`) and appending what follows (`Seg.append_chain`) gives
the new list.
-/

namespace LinkedList

variable {ι : Type*} {next : ι → Option ι} {p : Option ι} {l : List ι} {x : ι}

/-- Following `next` from `p` visits `l` and ends in `none`. -/
inductive Chain (next : ι → Option ι) : Option ι → List ι → Prop
  | nil : Chain next none []
  | cons {a : ι} {l : List ι} : Chain next (next a) l → Chain next (some a) (a :: l)

/-- Following `next` from `p` visits `x`. -/
inductive Reaches (next : ι → Option ι) : Option ι → ι → Prop
  | head (a : ι) : Reaches next (some a) a
  | tail {a x : ι} : Reaches next (next a) x → Reaches next (some a) x

@[simp] theorem chain_none : Chain next none l ↔ l = [] := by
  constructor
  · rintro ⟨⟩
    rfl
  · rintro rfl
    exact .nil

theorem chain_some {a : ι} : Chain next (some a) l ↔ ∃ l', l = a :: l' ∧ Chain next (next a) l' := by
  constructor
  · rintro ⟨⟩
    exact ⟨_, rfl, ‹_›⟩
  · rintro ⟨l', rfl, h⟩
    exact .cons h

theorem chain_cons {a : ι} : Chain next p (a :: l) ↔ p = some a ∧ Chain next (next a) l := by
  constructor
  · rintro ⟨⟩
    exact ⟨rfl, ‹_›⟩
  · rintro ⟨rfl, h⟩
    exact .cons h

/-- The list is empty exactly when the pointer is null. -/
theorem Chain.eq_nil_iff (h : Chain next p l) : l = [] ↔ p = none := by
  cases h with
  | nil => simp
  | cons _ => simp

theorem Chain.unique {l₁ l₂ : List ι} (h₁ : Chain next p l₁) (h₂ : Chain next p l₂) : l₁ = l₂ := by
  induction h₁ generalizing l₂ with
  | nil => exact (chain_none.mp h₂).symm
  | cons _ ih =>
      obtain ⟨l', rfl, h'⟩ := chain_some.mp h₂
      rw [ih h']

/-- **Frame rule.**  Writing the `next` field of a cell off the chain keeps the chain. -/
theorem Chain.update [DecidableEq ι] (h : Chain next p l) (hx : x ∉ l) (v : Option ι) :
    Chain (Function.update next x v) p l := by
  induction h with
  | nil => exact .nil
  | @cons a l _ ih =>
      have hax : a ≠ x := fun hax => hx (hax ▸ List.mem_cons_self)
      refine .cons ?_
      rw [Function.update_of_ne hax]
      exact ih fun hl => hx (List.mem_cons_of_mem a hl)

theorem Chain.reaches_iff (h : Chain next p l) : Reaches next p x ↔ x ∈ l := by
  induction h with
  | nil => exact ⟨(nomatch ·), (nomatch ·)⟩
  | @cons a l _ ih =>
      constructor
      · rintro (_ | ⟨hr⟩)
        · exact List.mem_cons_self
        · exact List.mem_cons_of_mem a (ih.mp hr)
      · intro hx
        rcases List.mem_cons.mp hx with rfl | hl
        · exact .head _
        · exact .tail (ih.mpr hl)

theorem not_reaches_none : ¬ Reaches next none x := fun h => nomatch h

/-! ## Segments -/

/-- Following `next` from `p` visits `l` and arrives at `q`. -/
inductive Seg (next : ι → Option ι) : Option ι → List ι → Option ι → Prop
  | nil (p : Option ι) : Seg next p [] p
  | cons {a : ι} {l : List ι} {q : Option ι} : Seg next (next a) l q → Seg next (some a) (a :: l) q

theorem Seg.append_chain {q : Option ι} {k r : List ι} (h : Seg next p k q) (hr : Chain next q r) :
    Chain next p (k ++ r) := by
  induction h with
  | nil => exact hr
  | cons _ ih => exact .cons (ih hr)

/-- A segment followed by one more cell. -/
theorem Seg.snoc {k : List ι} {a : ι} (h : Seg next p k (some a)) : Seg next p (k ++ [a]) (next a) := by
  induction k generalizing p with
  | nil =>
      cases h
      exact .cons (.nil _)
  | cons b k ih =>
      cases h with
      | cons h => exact .cons (ih h)

/-- The first cells of a chain form a segment to the rest. -/
theorem Chain.seg_of_append {k r : List ι} (h : Chain next p (k ++ r)) :
    ∃ q, Seg next p k q ∧ Chain next q r := by
  induction k generalizing p with
  | nil => exact ⟨p, .nil p, h⟩
  | cons a k ih =>
      cases h with
      | cons h =>
          obtain ⟨q, hs, hr⟩ := ih h
          exact ⟨q, .cons hs, hr⟩

/-- A chain is a segment to the null pointer. -/
theorem Chain.seg (h : Chain next p l) : Seg next p l none := by
  induction h with
  | nil => exact .nil _
  | cons _ ih => exact .cons ih

theorem Seg.chain (h : Seg next p l none) : Chain next p l := by
  simpa using h.append_chain Chain.nil

/-- A segment from a cell back to itself that does not pass through it is empty. -/
theorem Seg.eq_nil {a : ι} (h : Seg next (some a) l (some a)) (ha : a ∉ l) : l = [] := by
  cases h with
  | nil => rfl
  | cons _ => exact absurd List.mem_cons_self ha

/-- A chain never visits a cell twice: from a repeated cell the chain would go on both to the
rest after its first visit and to the rest after its second. -/
theorem Chain.nodup (h : Chain next p l) : l.Nodup := by
  induction h with
  | nil => exact List.nodup_nil
  | @cons a l hl ih =>
      refine List.nodup_cons.mpr ⟨fun ha => ?_, ih⟩
      obtain ⟨k, r, rfl⟩ := List.append_of_mem ha
      obtain ⟨q, -, hr⟩ := hl.seg_of_append
      obtain ⟨rfl, -⟩ := chain_cons.mp hr
      have hlen := congrArg List.length ((Chain.cons hl).unique hr)
      simp at hlen
      omega

theorem Seg.update [DecidableEq ι] {q : Option ι} (h : Seg next p l q) (hx : x ∉ l) (v : Option ι) :
    Seg (Function.update next x v) p l q := by
  induction h with
  | nil => exact .nil _
  | @cons a l _ _ ih =>
      have hax : a ≠ x := fun hax => hx (hax ▸ List.mem_cons_self)
      refine .cons ?_
      rw [Function.update_of_ne hax]
      exact ih fun hl => hx (List.mem_cons_of_mem a hl)

/-- **Redirecting the last cell.**  In a segment whose last cell `a` occurs once, pointing `a`
at `q'` makes the segment end at `q'`. -/
theorem Seg.relink [DecidableEq ι] {k : List ι} {a : ι} {q : Option ι} (h : Seg next p (k ++ [a]) q)
    (ha : a ∉ k) (q' : Option ι) : Seg (Function.update next a q') p (k ++ [a]) q' := by
  induction k generalizing p with
  | nil =>
      cases h
      refine .cons ?_
      rw [Function.update_self]
      exact .nil _
  | cons b k ih =>
      cases h with
      | cons h =>
          have hba : b ≠ a := fun hba => ha (hba ▸ List.mem_cons_self)
          refine .cons ?_
          rw [Function.update_of_ne hba]
          exact ih h fun hk => ha (List.mem_cons_of_mem b hk)

/-- **Appending a cell.**  Pointing the last cell `n` of a chain at a cell `x` off it whose
`next` is null extends the chain by `x`. -/
theorem Chain.append_cell [DecidableEq ι] {k : List ι} {n : ι} (h : Chain next p (k ++ [n]))
    (hn : n ∉ k) (hx : x ≠ n) (hxn : next x = none) :
    Chain (Function.update next n (some x)) p (k ++ [n, x]) := by
  have hlast : Chain (Function.update next n (some x)) (some x) [x] :=
    .cons (by rw [Function.update_of_ne hx, hxn]; exact .nil)
  simpa using (h.seg.relink hn (some x)).append_chain hlast

/-- **Deleting a cell.**  Pointing `a` at the successor of the cell `b` after it takes `b` off
the chain. -/
theorem Chain.unlink [DecidableEq ι] {k r : List ι} {a b : ι} (h : Chain next p (k ++ a :: b :: r))
    (ha : a ∉ k ++ r) : Chain (Function.update next a (next b)) p (k ++ a :: r) := by
  have h' : Chain next p ((k ++ [a]) ++ b :: r) := by simpa using h
  obtain ⟨q, hs, hc⟩ := h'.seg_of_append
  obtain ⟨rfl, hb⟩ := chain_cons.mp hc
  have hs' := hs.relink (fun hk => ha (List.mem_append_left _ hk)) (next b)
  simpa using hs'.append_chain (hb.update (fun hr => ha (List.mem_append_right _ hr)) _)

end LinkedList
