import Mathlib

/-!
# Runs of addresses

A *run* is anything with a start `lo a` and a length `len a`; it covers the half-open interval
`[lo a, lo a + len a)`, and `cells lo len a` lists those addresses.  A list of runs covers the
concatenation of their cells, its `footprint`.

Free lists of memory are lists of runs kept in address order, and two orderings of neighbours
matter: `Below a b` (`a` ends at or before the start of `b`: disjoint, possibly touching) and
`Gap a b` (`a` ends strictly before `b`: disjoint and not touching, so a coalescing allocator
could not have merged them).  Both are transitive, so a list ordered by either is `Pairwise`
ordered, and the sublist lemmas of `List.Pairwise` do the bookkeeping when a run is removed.

The facts here are the ones the allocator proofs use: a `Below`-ordered list covers every
address at most once (`footprint_nodup`), two runs with disjoint cells are ordered by their
starts (`below_of_disjoint`), and cutting a run at an offset splits its cells
(`cells_split`), which read backwards is how two touching runs merge.
-/

namespace Runs

variable {α : Type*} (lo len : α → ℕ)

/-- The addresses `[lo a, lo a + len a)` covered by the run `a`. -/
def cells (a : α) : List ℕ := List.range' (lo a) (len a)

/-- The addresses covered by a list of runs, run by run. -/
def footprint (l : List α) : List ℕ := l.flatMap (cells lo len)

/-- `a` ends strictly before `b` starts. -/
def Gap (a b : α) : Prop := lo a + len a < lo b

/-- `a` ends at or before the start of `b`. -/
def Below (a b : α) : Prop := lo a + len a ≤ lo b

variable {lo len}

@[simp] theorem mem_cells {a : α} {x : ℕ} : x ∈ cells lo len a ↔ lo a ≤ x ∧ x < lo a + len a :=
  List.mem_range'_1

@[simp] theorem footprint_nil : footprint lo len ([] : List α) = [] := rfl

@[simp] theorem footprint_cons (a : α) (l : List α) :
    footprint lo len (a :: l) = cells lo len a ++ footprint lo len l := rfl

@[simp] theorem footprint_append (l₁ l₂ : List α) :
    footprint lo len (l₁ ++ l₂) = footprint lo len l₁ ++ footprint lo len l₂ :=
  List.flatMap_append

theorem cells_nodup (a : α) : (cells lo len a).Nodup := List.nodup_range' 1

/-- A run's cells lie in the footprint of any list containing it. -/
theorem cells_subset_footprint {l : List α} {a : α} (ha : a ∈ l) :
    cells lo len a ⊆ footprint lo len l :=
  fun _ hx => List.mem_flatMap.mpr ⟨a, ha, hx⟩

theorem Gap.below {a b : α} (h : Gap lo len a b) : Below lo len a b := Nat.le_of_lt h

theorem gap_trans {a b c : α} (hab : Gap lo len a b) (hbc : Gap lo len b c) : Gap lo len a c := by
  unfold Gap at *
  omega

theorem below_trans {a b c : α} (hab : Below lo len a b) (hbc : Below lo len b c) :
    Below lo len a c := by
  unfold Below at *
  omega

theorem gap_of_gap_below {a b c : α} (hab : Gap lo len a b) (hbc : Below lo len b c) :
    Gap lo len a c := by
  unfold Gap Below at *
  omega

theorem gap_of_below_gap {a b c : α} (hab : Below lo len a b) (hbc : Gap lo len b c) :
    Gap lo len a c := by
  unfold Gap Below at *
  omega

instance : Trans (Gap lo len) (Gap lo len) (Gap lo len) := ⟨gap_trans⟩

instance : Trans (Below lo len) (Below lo len) (Below lo len) := ⟨below_trans⟩

/-- Runs in `Below` order are pairwise disjoint, so their footprint has no repeated address. -/
theorem footprint_nodup {l : List α} (h : l.Pairwise (Below lo len)) :
    (footprint lo len l).Nodup := by
  refine List.nodup_flatMap.mpr ⟨fun a _ => cells_nodup a, h.imp ?_⟩
  intro a b hab
  refine List.disjoint_left.mpr fun x hxa hxb => ?_
  simp only [mem_cells] at hxa hxb
  unfold Below at hab
  omega

/-- Two runs with disjoint cells, the second one non-empty, are ordered by their starts. -/
theorem below_of_disjoint {a b : α} (hb : 0 < len b) (hle : lo a ≤ lo b)
    (hd : List.Disjoint (cells lo len a) (cells lo len b)) : Below lo len a b := by
  have hmem : lo b ∈ cells lo len b := by simp [hb]
  have hout : lo b ∉ cells lo len a := fun h => List.disjoint_left.mp hd h hmem
  simp only [mem_cells, not_and, not_lt] at hout
  exact hout hle

/-- Cutting a run at offset `k` splits its cells into the two pieces. -/
theorem cells_split (a : α) {k : ℕ} (hk : k ≤ len a) :
    cells lo len a = List.range' (lo a) k ++ List.range' (lo a + k) (len a - k) := by
  rw [cells, List.range'_append_1]
  congr 1
  omega

/-! ## Families of lists -/

/-- Replacing the entry at `c` of an indexed family of lists, over a list of distinct indices
containing `c`, trades that entry's elements for the new ones. -/
theorem flatMap_update_perm {ι β : Type*} [DecidableEq ι] {l : List ι} (hl : l.Nodup) {c : ι}
    (hc : c ∈ l) (f : ι → List β) (y : List β) :
    (l.flatMap (Function.update f c y) ++ f c).Perm (y ++ l.flatMap f) := by
  induction l with
  | nil => simp at hc
  | cons i l ih =>
      obtain ⟨hi, hl⟩ := List.nodup_cons.mp hl
      by_cases hic : i = c
      · -- the updated entry is the head: the tail is untouched
        subst hic
        have htail : l.flatMap (Function.update f i y) = l.flatMap f := by
          refine List.flatMap_congr fun j hj => ?_
          have hji : j ≠ i := fun h => hi (h ▸ hj)
          rw [Function.update_of_ne hji]
        simp only [List.flatMap_cons, Function.update_self, htail, List.append_assoc]
        exact (List.perm_append_comm.append_left _)
      · have hc' : c ∈ l := (List.mem_cons.mp hc).resolve_left (Ne.symm hic)
        simp only [List.flatMap_cons, Function.update_of_ne hic, List.append_assoc]
        exact ((ih hl hc').append_left _).trans (List.perm_append_comm_assoc _ _ _)

end Runs
