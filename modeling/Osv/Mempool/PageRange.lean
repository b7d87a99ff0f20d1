import Osv.Lib.Runs

/-!
# `free_page_ranges`: the free list of the page allocator

`core/mempool.cc` keeps free physical memory in `free_page_ranges`, an intrusive red-black
tree of `page_range` headers ordered by address.  Each header lives at the start of the free
run it describes, so a header is an address and a size; the tree is modelled by the list of
its elements in address order, and every iterator step of the C++ code becomes a step along
that list.

The operations on the tree, in the source's words:

* `freePageRangeLocked` — `free_page_range_locked`: insert a range, then merge it with the
  range before it and with the range after it.  `insertRange` is `insert(*range).first`,
  `mergePrior` and `mergeNext` are the two `merge` calls.
* `mallocLarge` — `malloc_large`: round up to pages, add a header page, first fit, and carve
  the block from the **end** of the range that fits (or take the range whole).
* `earlyAllocPage` — `early_alloc_page`: the last page of the first range.
* `allocHugePage` — `alloc_huge_page(N)`: the last `N`-aligned block of the first range that
  has one, with the part before it kept and the part after it, `endsize`, given back through
  `free_page_range`.  `endsize` is an `int` in the source, and `toInt` is that conversion.
* `freeInitialMemoryRange` — `free_initial_memory_range`: the page-aligned part of a region.

A failed allocation aborts the kernel (`abort()`); the model returns `none` there.  Sizes and
addresses are natural numbers: every subtraction of the source is guarded by a comparison, so
nothing wraps, with one exception — the conversion of `endsize` to `int`, which is kept.

The second half proves what the allocator invariant needs of `freePageRangeLocked`: given a
free list that is `Separated` (sorted, disjoint and never touching) and a valid range disjoint
from it, the result is again separated and covers exactly the old cells and the new ones.
-/

namespace Osv.Mempool

/-- `memory::page_size`. -/
def pageSize : ℕ := 4096

theorem pageSize_pos : 0 < pageSize := by norm_num [pageSize]

/-- `align_down(n, alignment)`: `n & ~(alignment - 1)`, which for the power-of-two
alignments the allocator uses clears the low bits, i.e. rounds down to a multiple. -/
def alignDown (n alignment : ℕ) : ℕ := n / alignment * alignment

/-- `align_up(n, alignment)`. -/
def alignUp (n alignment : ℕ) : ℕ := alignDown (n + alignment - 1) alignment

/-- A `page_range` header: the free run of `size` bytes that starts at the header itself. -/
structure PageRange where
  addr : ℕ
  size : ℕ
deriving DecidableEq, Repr

namespace PageRange

/-- The bytes `[addr, addr + size)` of a range. -/
abbrev cells (r : PageRange) : List ℕ := Runs.cells addr size r

/-- `a` ends strictly before `b` starts: the two could not be merged. -/
abbrev Gap : PageRange → PageRange → Prop := Runs.Gap addr size

/-- `a` ends at or before the start of `b`. -/
abbrev Below : PageRange → PageRange → Prop := Runs.Below addr size

/-- The shape every range the allocator handles has: page-aligned, a positive whole number of
pages. -/
def Valid (r : PageRange) : Prop := pageSize ∣ r.addr ∧ pageSize ∣ r.size ∧ 0 < r.size

end PageRange

/-- The bytes covered by a list of ranges. -/
abbrev rangeCells (l : List PageRange) : List ℕ := Runs.footprint PageRange.addr PageRange.size l

/-- The shape of `free_page_ranges` that the allocator maintains: ordered by address, pairwise
disjoint and never touching (fully coalesced). -/
abbrev Separated (l : List PageRange) : Prop := l.Pairwise PageRange.Gap

/-! ## The operations -/

/-- `free_page_ranges.insert(*range).first`: the elements before the iterator, the element it
designates, and the elements after it.  Keys are addresses, so when an element with `range`'s
address is already present nothing is inserted and the iterator designates that element. -/
def insertRange (range : PageRange) (free : List PageRange) :
    List PageRange × PageRange × List PageRange :=
  match free.span (fun r => decide (r.addr < range.addr)) with
  | (before, e :: after) => if e.addr = range.addr then (before, e, after) else (before, range, e :: after)
  | (before, []) => (before, range, [])

/-- `if (i != begin()) i = iterator_to(*merge(&*prior(i), &*i))`: when the range before `i`
ends where `i` starts, it absorbs `i` and becomes the new `i`. -/
def mergePrior (before : List PageRange) (i : PageRange) : List PageRange × PageRange :=
  match before.getLast? with
  | some p => if p.addr + p.size = i.addr then (before.dropLast, ⟨p.addr, p.size + i.size⟩) else (before, i)
  | none => (before, i)

/-- `if (next(i) != end()) merge(&*i, &*next(i))`: when `i` ends where the next range starts,
`i` absorbs it. -/
def mergeNext (i : PageRange) (after : List PageRange) : PageRange × List PageRange :=
  match after with
  | n :: rest => if i.addr + i.size = n.addr then (⟨i.addr, i.size + n.size⟩, rest) else (i, n :: rest)
  | [] => (i, [])

/-- `free_page_range_locked(range)`: return a range to the free list, coalescing it with both
neighbours. -/
def freePageRangeLocked (range : PageRange) (free : List PageRange) : List PageRange :=
  match insertRange range free with
  | (before, i, after) =>
    match mergePrior before i with
    | (before, i) =>
      match mergeNext i after with
      | (i, after) => before ++ i :: after

/-- The first-fit loop of `malloc_large` for a request of `size` bytes (header included).  An
exact fit is erased from the tree; otherwise the header shrinks and the block is carved from
the end of the range.  The result is the block, `ret_header` with its recorded size, and the
new free list. -/
def mallocLargeFit (size : ℕ) : List PageRange → Option (PageRange × List PageRange)
  | [] => none
  | header :: rest =>
      if size ≤ header.size then
        if header.size = size then some (header, rest)
        else some (⟨header.addr + (header.size - size), size⟩, ⟨header.addr, header.size - size⟩ :: rest)
      else (mallocLargeFit size rest).map fun br => (br.1, header :: br.2)

/-- `malloc_large(size)`: whole pages plus one header page; the object returned to the caller
is `ret_header + page_size`.  `none` is the out-of-memory abort. -/
def mallocLarge (size : ℕ) (free : List PageRange) : Option (PageRange × List PageRange) :=
  mallocLargeFit (alignUp size pageSize + pageSize) free

/-- `early_alloc_page`: the last page of the first range, which is erased once empty. -/
def earlyAllocPage : List PageRange → Option (ℕ × List PageRange)
  | [] => none
  | p :: rest =>
      let p' : PageRange := ⟨p.addr, p.size - pageSize⟩
      some (p.addr + p'.size, if p'.size = 0 then rest else p' :: rest)

/-- The conversion of an `intptr_t` value to `int`: the low 32 bits, read as a signed number. -/
def toInt (x : ℤ) : ℤ := x.bmod (2 ^ 32)

/-- The test of `alloc_huge_page`'s loop: a range big enough for `N` bytes, in which the last
`N`-aligned block, `ret = (v + range->size - N) & ~(N - 1)`, does not start before the range. -/
def hugeStart (N : ℕ) (range : PageRange) : Option ℕ :=
  if range.size < N then none
  else
    let ret := alignDown (range.addr + range.size - N) N
    if ret < range.addr then none else some ret

/-- The loop of `alloc_huge_page` over the free list: the ranges it skips, the one it stops
at with the block start found there, and the rest. -/
def findHuge (N : ℕ) : List PageRange → Option (List PageRange × PageRange × ℕ × List PageRange)
  | [] => none
  | r :: rest =>
      match hugeStart N r with
      | some ret => some ([], r, ret, rest)
      | none => (findHuge N rest).map fun f => (r :: f.1, f.2)

/-- `alloc_huge_page(N)`: cut the block `[ret, ret + N)` out of the range found; the part before
it stays (or the range is erased when there is none), and the `endsize` bytes after it are
returned with `free_page_range`.  `endsize` is computed in `intptr_t` and stored in an `int`. -/
def allocHugePage (N : ℕ) (free : List PageRange) : Option (ℕ × List PageRange) :=
  match findHuge N free with
  | none => none
  | some (pre, range, ret, post) =>
      let v := range.addr
      let endsize : ℤ := toInt ((v : ℤ) + range.size - ret - N)
      let free := if ret = v then pre ++ post else pre ++ ⟨v, ret - v⟩ :: post
      some (ret, if 0 < endsize then freePageRangeLocked ⟨ret + N, endsize.toNat⟩ free else free)

/-- The range `free_initial_memory_range(addr, size)` hands to `free_page_range`: address 0 is
never used, then the region is trimmed to whole, aligned pages.  `none` is an early return. -/
def freeInitialMemoryRange (addr size : ℕ) : Option PageRange :=
  if size = 0 then none
  else
    let (addr, size) := if addr = 0 then (addr + 1, size - 1) else (addr, size)
    let delta := alignUp addr pageSize - addr
    if size < delta then none
    else
      let size := alignDown (size - delta) pageSize
      if size = 0 then none else some ⟨addr + delta, size⟩

/-! ## Returning a range to the free list -/

/-- What the allocator maintains of `free_page_ranges`: separated, and every range valid. -/
structure FreeListOk (l : List PageRange) : Prop where
  separated : Separated l
  valid : ∀ r ∈ l, r.Valid

theorem FreeListOk.sublist {l l' : List PageRange} (h : FreeListOk l) (hs : l'.Sublist l) :
    FreeListOk l' :=
  ⟨h.separated.sublist hs, fun r hr => h.valid r (hs.subset hr)⟩

theorem FreeListOk.nil : FreeListOk [] := ⟨List.Pairwise.nil, fun _ h => by simp at h⟩

theorem FreeListOk.singleton {r : PageRange} (h : r.Valid) : FreeListOk [r] :=
  ⟨List.pairwise_singleton _ r, fun _ hr => List.mem_singleton.mp hr ▸ h⟩

/-- Merging two touching ranges concatenates their bytes. -/
theorem cells_merge {a b : PageRange} (h : a.addr + a.size = b.addr) :
    (⟨a.addr, a.size + b.size⟩ : PageRange).cells = a.cells ++ b.cells := by
  simp only [PageRange.cells, Runs.cells, ← h, List.range'_append_1]

theorem valid_merge {a b : PageRange} (ha : a.Valid) (hb : b.Valid) :
    (⟨a.addr, a.size + b.size⟩ : PageRange).Valid :=
  ⟨ha.1, Nat.dvd_add ha.2.1 hb.2.1, Nat.add_pos_left ha.2.2 _⟩

/-- A range whose bytes are free of the list shares its address with no range of it. -/
theorem addr_ne_of_disjoint {range e : PageRange} {free : List PageRange} (hok : FreeListOk free)
    (hr : range.Valid) (hdisj : List.Disjoint range.cells (rangeCells free)) (he : e ∈ free) :
    e.addr ≠ range.addr := by
  intro heq
  refine List.disjoint_left.mp hdisj (show range.addr ∈ range.cells by simp [hr.2.2]) ?_
  exact Runs.cells_subset_footprint he (by simp [heq, (hok.valid e he).2.2])

/-- The insertion point of a range whose bytes are free of the list: everything before it
starts below it, everything after it starts above it, and nothing with its address is there. -/
theorem insertRange_eq {range : PageRange} {free : List PageRange} (hok : FreeListOk free)
    (hr : range.Valid) (hdisj : List.Disjoint range.cells (rangeCells free)) :
    ∃ before after, free = before ++ after ∧ insertRange range free = (before, range, after) ∧
      (∀ b ∈ before, b.addr < range.addr) ∧ (∀ a ∈ after, range.addr < a.addr) := by
  have hsplit := List.takeWhile_append_dropWhile (p := fun r => decide (r.addr < range.addr))
    (l := free)
  have hhead := List.head?_dropWhile_not (fun r => decide (r.addr < range.addr)) free
  refine ⟨free.takeWhile (fun r => decide (r.addr < range.addr)),
    free.dropWhile (fun r => decide (r.addr < range.addr)), hsplit.symm,
    ?_, fun b hb => by simpa using List.mem_takeWhile_imp hb, ?_⟩
  · -- the first element not below `range` cannot share its address
    rw [insertRange, List.span_eq_takeWhile_dropWhile]
    cases hd : free.dropWhile (fun r => decide (r.addr < range.addr)) with
    | nil => rfl
    | cons e after =>
        have he : e ∈ free := by rw [← hsplit, hd]; simp
        simp [addr_ne_of_disjoint hok hr hdisj he]
  · -- everything after the insertion point starts at or above the first element there
    intro a ha
    cases hd : free.dropWhile (fun r => decide (r.addr < range.addr)) with
    | nil => simp [hd] at ha
    | cons e after =>
        rw [hd] at ha hhead
        have hge : range.addr ≤ e.addr := by simpa using hhead
        have he : e ∈ free := by rw [← hsplit, hd]; simp
        have hne := addr_ne_of_disjoint hok hr hdisj he
        rcases List.mem_cons.mp ha with rfl | ha
        · omega
        · have hsep : Separated (free.takeWhile (fun r => decide (r.addr < range.addr)) ++
              e :: after) := by rw [← hd, hsplit]; exact hok.separated
          have hgap : e.Gap a := List.rel_of_pairwise_cons (List.pairwise_append.mp hsep).2.1 ha
          unfold PageRange.Gap Runs.Gap at hgap
          omega

/-- `merge(prior(i), i)`: the range before `i` absorbs it when they touch, and whatever survives
as `i` is then separated from everything before it. -/
theorem mergePrior_spec {before before' : List PageRange} {i i' : PageRange}
    (hok : FreeListOk before) (hi : i.Valid) (hbelow : ∀ b ∈ before, b.Below i)
    (h : mergePrior before i = (before', i')) :
    before'.Sublist before ∧ (∀ b ∈ before', b.Gap i') ∧ i'.addr + i'.size = i.addr + i.size ∧
      i'.Valid ∧ rangeCells before' ++ i'.cells = rangeCells before ++ i.cells := by
  unfold mergePrior at h
  cases hp : before.getLast? with
  | none =>
      rw [hp] at h
      cases h
      have hnil : before = [] := List.getLast?_eq_none_iff.mp hp
      subst hnil
      exact ⟨List.Sublist.refl _, by simp, rfl, hi, rfl⟩
  | some p =>
      rw [hp] at h
      dsimp only at h
      have hsplit : before.dropLast ++ [p] = before := List.dropLast_append_getLast? p hp
      have hpmem : p ∈ before := List.mem_of_getLast? hp
      have hsep : Separated (before.dropLast ++ [p]) := by rw [hsplit]; exact hok.separated
      -- everything strictly before `p` is separated from `p`
      have hgap_p : ∀ b ∈ before.dropLast, b.Gap p := fun b hb =>
        (List.pairwise_append.mp hsep).2.2 b hb p (by simp)
      split_ifs at h with hadj
      · -- `p` ends where `i` starts: `p` grows over `i`
        cases h
        refine ⟨List.dropLast_sublist _, fun b hb => hgap_p b hb, by simp; omega,
          valid_merge (hok.valid p hpmem) hi, ?_⟩
        rw [cells_merge hadj, ← hsplit]
        simp
      · cases h
        refine ⟨List.Sublist.refl _, fun b hb => ?_, rfl, hi, rfl⟩
        have hpi : p.Gap i := by
          have := hbelow p hpmem
          unfold PageRange.Below Runs.Below at this
          unfold PageRange.Gap Runs.Gap
          omega
        rw [← hsplit, List.mem_append, List.mem_singleton] at hb
        rcases hb with hb | rfl
        · exact Runs.gap_of_gap_below (hgap_p b hb) hpi.below
        · exact hpi

/-- `merge(i, next(i))`: `i` absorbs the next range when they touch, and is then separated from
everything after it. -/
theorem mergeNext_spec {after after' : List PageRange} {i i' : PageRange}
    (hok : FreeListOk after) (hi : i.Valid) (habove : ∀ a ∈ after, i.Below a)
    (h : mergeNext i after = (i', after')) :
    after'.Sublist after ∧ (∀ a ∈ after', i'.Gap a) ∧ i'.addr = i.addr ∧ i'.Valid ∧
      i'.cells ++ rangeCells after' = i.cells ++ rangeCells after := by
  unfold mergeNext at h
  cases after with
  | nil =>
      cases h
      exact ⟨List.Sublist.refl _, by simp, rfl, hi, rfl⟩
  | cons n rest =>
      dsimp only at h
      have hsep := List.pairwise_cons.mp hok.separated
      have hnmem : n ∈ n :: rest := List.mem_cons_self
      split_ifs at h with hadj
      · -- `i` ends where `n` starts: `i` grows over `n`
        cases h
        refine ⟨List.sublist_cons_self _ _, fun a ha => ?_, rfl,
          valid_merge hi (hok.valid n hnmem), ?_⟩
        · have := hsep.1 a ha
          unfold PageRange.Gap Runs.Gap at this ⊢
          simp only
          omega
        · rw [cells_merge hadj]
          simp
      · cases h
        have hin : i.Gap n := by
          have := habove n hnmem
          unfold PageRange.Below Runs.Below at this
          unfold PageRange.Gap Runs.Gap
          omega
        refine ⟨List.Sublist.refl _, fun a ha => ?_, rfl, hi, rfl⟩
        rcases List.mem_cons.mp ha with rfl | ha
        · exact hin
        · exact Runs.gap_of_below_gap hin.below (hsep.1 a ha)

/-- **`free_page_range_locked` keeps the free list coalesced and loses nothing.**  Returning a
valid range whose bytes are not free gives a free list that is again separated and valid, and
that covers the old free bytes and the returned ones, each once. -/
theorem freePageRangeLocked_spec {range : PageRange} {free : List PageRange}
    (hok : FreeListOk free) (hr : range.Valid)
    (hdisj : List.Disjoint range.cells (rangeCells free)) :
    FreeListOk (freePageRangeLocked range free) ∧
      (rangeCells (freePageRangeLocked range free)).Perm (range.cells ++ rangeCells free) := by
  obtain ⟨before, after, rfl, hins, hlt, hgt⟩ := insertRange_eq hok hr hdisj
  have hokb : FreeListOk before := hok.sublist (List.sublist_append_left _ _)
  have hoka : FreeListOk after := hok.sublist (List.sublist_append_right _ _)
  -- disjoint bytes and the order of the starts put `range` between the two halves
  have hbelow : ∀ b ∈ before, b.Below range := fun b hb =>
    Runs.below_of_disjoint hr.2.2 (hlt b hb).le
      ((List.disjoint_of_subset_right (Runs.cells_subset_footprint (by simp [hb])) hdisj).symm)
  have habove : ∀ a ∈ after, range.Below a := fun a ha =>
    Runs.below_of_disjoint (hoka.valid a ha).2.2 (hgt a ha).le
      (List.disjoint_of_subset_right (Runs.cells_subset_footprint (by simp [ha])) hdisj)
  rcases hp : mergePrior before range with ⟨before', i'⟩
  obtain ⟨hsubb, hgapb, hend, hvi', hcellsb⟩ := mergePrior_spec hokb hr hbelow hp
  have habove' : ∀ a ∈ after, i'.Below a := fun a ha => by
    have := habove a ha
    unfold PageRange.Below Runs.Below at this ⊢
    omega
  rcases hn : mergeNext i' after with ⟨i'', after'⟩
  obtain ⟨hsuba, hgapa, haddr, hvi'', hcellsa⟩ := mergeNext_spec hoka hvi' habove' hn
  have hres : freePageRangeLocked range (before ++ after) = before' ++ i'' :: after' := by
    simp only [freePageRangeLocked, hins, hp, hn]
  rw [hres]
  refine ⟨⟨?_, ?_⟩, ?_⟩
  · -- the three pieces are each separated and separated from one another
    refine List.pairwise_append.mpr ⟨hokb.separated.sublist hsubb,
      List.pairwise_cons.mpr ⟨hgapa, hoka.separated.sublist hsuba⟩, fun b hb y hy => ?_⟩
    rcases List.mem_cons.mp hy with rfl | hy
    · have := hgapb b hb
      unfold PageRange.Gap Runs.Gap at this ⊢
      omega
    · exact List.pairwise_append.mp hok.separated |>.2.2 b (hsubb.subset hb) y (hsuba.subset hy)
  · intro r hr'
    rcases List.mem_append.mp hr' with hr' | hr'
    · exact hokb.valid r (hsubb.subset hr')
    · rcases List.mem_cons.mp hr' with rfl | hr'
      · exact hvi''
      · exact hoka.valid r (hsuba.subset hr')
  · -- the bytes are the old ones with `range`'s moved to the front
    have hcells : rangeCells (before' ++ i'' :: after') =
        rangeCells before ++ range.cells ++ rangeCells after := by
      simp only [Runs.footprint_append, Runs.footprint_cons]
      rw [hcellsa, ← List.append_assoc, hcellsb]
    rw [hcells]
    simp only [rangeCells, Runs.footprint_append]
    exact (List.perm_append_comm.append_right _).trans (by simp)

/-! ## Taking memory from the free list -/

/-- Shrinking a range of a good free list, keeping its start, keeps the list good. -/
theorem FreeListOk.shrink {pre post : List PageRange} {r r' : PageRange}
    (hok : FreeListOk (pre ++ r :: post)) (hr' : r'.Valid) (haddr : r'.addr = r.addr)
    (hsize : r'.size ≤ r.size) : FreeListOk (pre ++ r' :: post) := by
  obtain ⟨hpre, hrpost, hcross⟩ := List.pairwise_append.mp hok.separated
  obtain ⟨hr, hpost⟩ := List.pairwise_cons.mp hrpost
  refine ⟨List.pairwise_append.mpr ⟨hpre, List.pairwise_cons.mpr ⟨fun a ha => ?_, hpost⟩,
    fun b hb y hy => ?_⟩, fun x hx => ?_⟩
  · have := hr a ha
    unfold PageRange.Gap Runs.Gap at this ⊢
    omega
  · rcases List.mem_cons.mp hy with rfl | hy
    · have := hcross b hb r (by simp)
      unfold PageRange.Gap Runs.Gap at this ⊢
      omega
    · exact hcross b hb y (by simp [hy])
  · simp only [List.mem_append, List.mem_cons] at hx
    rcases hx with hx | rfl | hx
    · exact hok.valid x (by simp [hx])
    · exact hr'
    · exact hok.valid x (by simp [hx])

/-- The case of the first range of the list. -/
theorem FreeListOk.shrink_head {rest : List PageRange} {r r' : PageRange}
    (hok : FreeListOk (r :: rest)) (hr' : r'.Valid) (haddr : r'.addr = r.addr)
    (hsize : r'.size ≤ r.size) : FreeListOk (r' :: rest) :=
  @FreeListOk.shrink [] rest r r' hok hr' haddr hsize

/-- Cutting `k` bytes off the end of a range splits its bytes into the part kept and the part
cut. -/
theorem cells_cut_end (p : PageRange) {k : ℕ} (hk : k ≤ p.size) :
    p.cells = (⟨p.addr, p.size - k⟩ : PageRange).cells ++ (⟨p.addr + (p.size - k), k⟩ : PageRange).cells := by
  rw [PageRange.cells, Runs.cells_split p (Nat.sub_le p.size k)]
  simp only [PageRange.cells, Runs.cells]
  congr 2
  omega

/-- The tail of `k` bytes of a valid range, `k` a positive number of pages, is valid. -/
theorem valid_cut_end {p : PageRange} {k : ℕ} (hp : p.Valid) (hk : pageSize ∣ k) (hpos : 0 < k) :
    (⟨p.addr + (p.size - k), k⟩ : PageRange).Valid :=
  ⟨Nat.dvd_add hp.1 (Nat.dvd_sub hp.2.1 hk), hk, hpos⟩

/-- What is left of a valid range after cutting fewer than all its bytes is valid. -/
theorem valid_cut_rest {p : PageRange} {k : ℕ} (hp : p.Valid) (hk : pageSize ∣ k) (hlt : k < p.size) :
    (⟨p.addr, p.size - k⟩ : PageRange).Valid :=
  ⟨hp.1, Nat.dvd_sub hp.2.1 hk, Nat.sub_pos_of_lt hlt⟩

/-- **First fit.**  `malloc_large`'s loop hands out a valid block of the requested size that
was free, and leaves a good free list whose ranges all start where free ranges started. -/
theorem mallocLargeFit_spec {size : ℕ} (hsize : pageSize ∣ size) (hpos : 0 < size) :
    ∀ {free free' : List PageRange} {b : PageRange}, FreeListOk free →
      mallocLargeFit size free = some (b, free') →
      FreeListOk free' ∧ b.Valid ∧ b.size = size ∧ (∀ a ∈ free', ∃ a₀ ∈ free, a.addr = a₀.addr) ∧
        (rangeCells free).Perm (b.cells ++ rangeCells free')
  | [], _, _, _, h => by simp [mallocLargeFit] at h
  | header :: rest, free', b, hok, h => by
      simp only [mallocLargeFit] at h
      have hh := hok.valid header (by simp)
      split_ifs at h with hle heq
      · -- an exact fit: the range is erased
        cases h
        exact ⟨hok.sublist (List.sublist_cons_self _ _), hh, heq,
          fun a ha => ⟨a, by simp [ha], rfl⟩, by simp⟩
      · -- the block is carved from the end of the range, whose header shrinks
        cases h
        have hlt : size < header.size := lt_of_le_of_ne hle (Ne.symm heq)
        refine ⟨hok.shrink_head (valid_cut_rest hh hsize hlt) rfl (Nat.sub_le _ _),
          valid_cut_end hh hsize hpos, rfl, fun a ha => ?_, ?_⟩
        · rcases List.mem_cons.mp ha with rfl | ha
          · exact ⟨header, by simp, rfl⟩
          · exact ⟨a, by simp [ha], rfl⟩
        · have hcut := cells_cut_end header hle
          simp only [Runs.footprint_cons, hcut, List.append_assoc]
          exact List.perm_append_comm_assoc _ _ _
      · -- no fit here: the search goes on along the list
        obtain ⟨⟨b', rest'⟩, hrec, hb⟩ := Option.map_eq_some_iff.mp h
        cases hb
        have hsep := List.pairwise_cons.mp hok.separated
        obtain ⟨hok', hbv, hbs, hstart, hperm⟩ :=
          mallocLargeFit_spec hsize hpos (hok.sublist (List.sublist_cons_self _ _)) hrec
        refine ⟨⟨List.pairwise_cons.mpr ⟨fun a ha => ?_, hok'.separated⟩, fun a ha => ?_⟩,
          hbv, hbs, fun a ha => ?_, ?_⟩
        · obtain ⟨a₀, ha₀, heq⟩ := hstart a ha
          have := hsep.1 a₀ ha₀
          unfold PageRange.Gap Runs.Gap at this ⊢
          omega
        · rcases List.mem_cons.mp ha with rfl | ha
          · exact hh
          · exact hok'.valid a ha
        · rcases List.mem_cons.mp ha with rfl | ha
          · exact ⟨a, by simp, rfl⟩
          · obtain ⟨a₀, ha₀, heq⟩ := hstart a ha
            exact ⟨a₀, by simp [ha₀], heq⟩
        · simp only [Runs.footprint_cons]
          exact (hperm.append_left _).trans (List.perm_append_comm_assoc _ _ _)

/-- `malloc_large` rounds a request up to a positive whole number of pages. -/
theorem mallocLarge_size_dvd (size : ℕ) : pageSize ∣ alignUp size pageSize + pageSize := by
  unfold alignUp alignDown
  exact Nat.dvd_add (Nat.dvd_mul_left _ _) (dvd_refl _)

/-- `early_alloc_page` hands out a valid page that was free and leaves a good free list. -/
theorem earlyAllocPage_spec {free free' : List PageRange} {page : ℕ} (hok : FreeListOk free)
    (h : earlyAllocPage free = some (page, free')) :
    FreeListOk free' ∧ (⟨page, pageSize⟩ : PageRange).Valid ∧
      (rangeCells free).Perm ((⟨page, pageSize⟩ : PageRange).cells ++ rangeCells free') := by
  cases free with
  | nil => simp [earlyAllocPage] at h
  | cons p rest =>
      simp only [earlyAllocPage, Option.some.injEq, Prod.mk.injEq] at h
      obtain ⟨rfl, rfl⟩ := h
      have hp := hok.valid p (by simp)
      have hle : pageSize ≤ p.size := Nat.le_of_dvd hp.2.2 hp.2.1
      have hcut := cells_cut_end p hle
      refine ⟨?_, valid_cut_end hp (dvd_refl _) (by decide), ?_⟩
      · split_ifs with h0
        · exact hok.sublist (List.sublist_cons_self _ _)
        · exact hok.shrink_head (valid_cut_rest hp (dvd_refl _) (by omega)) rfl (Nat.sub_le _ _)
      · split_ifs with h0
        · -- the page was the whole range
          have hnil : (⟨p.addr, p.size - pageSize⟩ : PageRange).cells = [] := by
            simp [PageRange.cells, Runs.cells, h0]
          simp [Runs.footprint_cons, hcut, hnil]
        · simp only [Runs.footprint_cons, hcut, List.append_assoc]
          exact List.perm_append_comm_assoc _ _ _

/-- The loop of `alloc_huge_page` stops at a range of the list, at a block start it accepted. -/
theorem findHuge_eq {N : ℕ} : ∀ {free pre post : List PageRange} {range : PageRange} {ret : ℕ},
    findHuge N free = some (pre, range, ret, post) →
      free = pre ++ range :: post ∧ hugeStart N range = some ret
  | [], _, _, _, _, h => by simp [findHuge] at h
  | r :: rest, pre, post, range, ret, h => by
      simp only [findHuge] at h
      cases hs : hugeStart N r with
      | some ret' =>
          rw [hs] at h
          simp only [Option.some.injEq, Prod.mk.injEq] at h
          obtain ⟨rfl, rfl, rfl, rfl⟩ := h
          exact ⟨rfl, hs⟩
      | none =>
          rw [hs] at h
          obtain ⟨⟨pre', range', ret'', post'⟩, hrec, hf⟩ := Option.map_eq_some_iff.mp h
          simp only [Prod.mk.injEq] at hf
          obtain ⟨rfl, rfl, rfl, rfl⟩ := hf
          obtain ⟨hfree, hstart⟩ := findHuge_eq hrec
          exact ⟨by simp [hfree], hstart⟩

/-- The block `alloc_huge_page` accepts in a range: `N`-aligned, inside the range, and with
less than `N` bytes of the range after it. -/
theorem hugeStart_spec {N ret : ℕ} {range : PageRange} (hN : 0 < N)
    (h : hugeStart N range = some ret) :
    range.addr ≤ ret ∧ ret + N ≤ range.addr + range.size ∧
      range.addr + range.size < ret + N + N ∧ N ∣ ret := by
  unfold hugeStart alignDown at h
  by_cases hlt : range.size < N
  · simp [hlt] at h
  · by_cases hret : (range.addr + range.size - N) / N * N < range.addr
    · simp [hlt, hret] at h
    · simp only [hlt, hret, if_false, Option.some.injEq] at h
      subst h
      have hle := Nat.div_mul_le_self (range.addr + range.size - N) N
      have hmod := Nat.mod_lt (range.addr + range.size - N) hN
      have hdecomp := Nat.div_add_mod (range.addr + range.size - N) N
      rw [Nat.mul_comm] at hdecomp
      exact ⟨by omega, by omega, by omega, Nat.dvd_mul_left _ _⟩

/-- The `int` conversion is the identity on values below `2 ^ 31`. -/
theorem toInt_of_lt {x : ℤ} (h0 : 0 ≤ x) (h : x < 2 ^ 31) : toInt x = x := by
  rw [toInt, Int.bmod_def]
  split_ifs <;> omega

/-- **`alloc_huge_page` for blocks of at most `2 ^ 31` bytes.**  The block handed out is valid
and was free, and the free list keeps every other byte: the part of the range before the block,
and the `endsize` bytes after it, which are returned through `free_page_range`.  The bound on `N`
is what keeps `endsize`, always below `N`, representable in its `int`. -/
theorem allocHugePage_spec {N ret : ℕ} {free free' : List PageRange} (hN : pageSize ∣ N)
    (hNpos : 0 < N) (hsmall : N ≤ 2 ^ 31) (hok : FreeListOk free)
    (h : allocHugePage N free = some (ret, free')) :
    FreeListOk free' ∧ (⟨ret, N⟩ : PageRange).Valid ∧
      (rangeCells free).Perm ((⟨ret, N⟩ : PageRange).cells ++ rangeCells free') := by
  unfold allocHugePage at h
  cases hf : findHuge N free with
  | none => rw [hf] at h; cases h
  | some f =>
  obtain ⟨pre, range, ret', post⟩ := f
  rw [hf] at h
  obtain ⟨rfl, hstart⟩ := findHuge_eq hf
  obtain ⟨hv, hin, htail, hdvd⟩ := hugeStart_spec hNpos hstart
  have hr := hok.valid range (by simp)
  simp only [Option.some.injEq, Prod.mk.injEq] at h
  obtain ⟨rfl, hfree'⟩ := h
  -- the three pieces of the range: before the block, the block, and `endsize` bytes after it
  have he0 : (0 : ℤ) ≤ (range.addr : ℤ) + range.size - ret' - N := by omega
  have he1 : (range.addr : ℤ) + range.size - ret' - N < 2 ^ 31 := by omega
  have hend : toInt ((range.addr : ℤ) + range.size - ret' - N) =
      ((range.addr + range.size - (ret' + N) : ℕ) : ℤ) := by
    rw [toInt_of_lt he0 he1, Nat.cast_sub hin]
    push_cast
    ring
  rw [hend] at hfree'
  have hpg : pageSize ∣ ret' := dvd_trans hN hdvd
  have hcells : range.cells = List.range' range.addr (ret' - range.addr) ++
      (⟨ret', N⟩ : PageRange).cells ++ List.range' (ret' + N) (range.addr + range.size - (ret' + N)) := by
    have e1 : range.size = (ret' - range.addr) + (N + (range.addr + range.size - (ret' + N))) := by
      omega
    have e2 : range.addr + (ret' - range.addr) = ret' := by omega
    simp only [PageRange.cells, Runs.cells]
    conv_lhs => rw [e1, ← List.range'_append_1, e2, ← List.range'_append_1]
    simp
  -- the free list once the range is cut down to the part before the block
  have hokL0 : FreeListOk (if ret' = range.addr then pre ++ post
      else pre ++ ⟨range.addr, ret' - range.addr⟩ :: post) := by
    split_ifs with heq
    · exact hok.sublist ((List.sublist_cons_self range post).append_left pre)
    · exact hok.shrink ⟨hr.1, Nat.dvd_sub hpg hr.1, Nat.sub_pos_of_lt (lt_of_le_of_ne hv (Ne.symm heq))⟩
        rfl (by simp only; omega)
  have hcellsL0 : rangeCells (if ret' = range.addr then pre ++ post
      else pre ++ ⟨range.addr, ret' - range.addr⟩ :: post) =
      rangeCells pre ++ List.range' range.addr (ret' - range.addr) ++ rangeCells post := by
    split_ifs with heq
    · simp [heq]
    · simp [Runs.cells]
  have hperm0 : (rangeCells (pre ++ range :: post)).Perm ((⟨ret', N⟩ : PageRange).cells ++
      (List.range' (ret' + N) (range.addr + range.size - (ret' + N)) ++ rangeCells (if ret' = range.addr
        then pre ++ post else pre ++ ⟨range.addr, ret' - range.addr⟩ :: post))) := by
    rw [hcellsL0]
    simp only [rangeCells, Runs.footprint_append, Runs.footprint_cons, hcells]
    rw [← Multiset.coe_eq_coe]
    simp only [← Multiset.coe_add]
    ac_rfl
  subst hfree'
  by_cases hpos : 0 < range.addr + range.size - (ret' + N)
  · -- the `endsize` bytes are returned: they were free of the rest of the list
    have hpos' : (0 : ℤ) < ((range.addr + range.size - (ret' + N) : ℕ) : ℤ) := by exact_mod_cast hpos
    rw [if_pos hpos', Int.toNat_natCast]
    have hdisj := List.disjoint_of_nodup_append (List.Nodup.of_append_right
      ((Runs.footprint_nodup (hok.separated.imp Runs.Gap.below)).perm hperm0))
    have hve : (⟨ret' + N, range.addr + range.size - (ret' + N)⟩ : PageRange).Valid :=
      ⟨Nat.dvd_add hpg hN, Nat.dvd_sub (Nat.dvd_add hr.1 hr.2.1) (Nat.dvd_add hpg hN), hpos⟩
    obtain ⟨hok', hperm'⟩ := freePageRangeLocked_spec hokL0 hve hdisj
    exact ⟨hok', ⟨hpg, hN, hNpos⟩, hperm0.trans (hperm'.symm.append_left _)⟩
  · -- no bytes after the block
    have hpos' : ¬ (0 : ℤ) < ((range.addr + range.size - (ret' + N) : ℕ) : ℤ) := by exact_mod_cast hpos
    rw [if_neg hpos']
    have h0 : range.addr + range.size - (ret' + N) = 0 := by omega
    rw [h0] at hperm0
    exact ⟨hokL0, ⟨hpg, hN, hNpos⟩, by simpa using hperm0⟩

/-- The range `free_initial_memory_range` frees is valid and lies inside the region given. -/
theorem freeInitialMemoryRange_spec {addr size : ℕ} {r : PageRange}
    (h : freeInitialMemoryRange addr size = some r) :
    r.Valid ∧ addr ≤ r.addr ∧ r.addr + r.size ≤ addr + size := by
  unfold freeInitialMemoryRange at h
  by_cases hs : size = 0
  · simp [hs] at h
  -- after the `nullptr` adjustment the region is `[a, a + n)`, inside the given one
  obtain ⟨a, n, hadj, ha, hn⟩ : ∃ a n, (if addr = 0 then (addr + 1, size - 1) else (addr, size)) = (a, n) ∧
      addr ≤ a ∧ a + n ≤ addr + size := by
    by_cases h0 : addr = 0
    · exact ⟨addr + 1, size - 1, by simp [h0], by omega, by omega⟩
    · exact ⟨addr, size, by simp [h0], le_rfl, le_rfl⟩
  simp only [hs, if_false, hadj] at h
  unfold alignUp alignDown pageSize at h
  split_ifs at h with hlt h0
  cases h
  have hup := Nat.div_mul_le_self (a + 4096 - 1) 4096
  have hdown := Nat.div_mul_le_self (n - ((a + 4096 - 1) / 4096 * 4096 - a)) 4096
  have hmod := Nat.mod_lt (a + 4096 - 1) (show 0 < 4096 by decide)
  have hdecomp := Nat.div_add_mod (a + 4096 - 1) 4096
  refine ⟨⟨?_, Nat.dvd_mul_left _ _, Nat.pos_of_ne_zero h0⟩, ?_, ?_⟩ <;> dsimp only
  · have : a + ((a + 4096 - 1) / 4096 * 4096 - a) = (a + 4096 - 1) / 4096 * 4096 := by omega
    rw [this]
    exact Nat.dvd_mul_left _ _
  · omega
  · omega

end Osv.Mempool
