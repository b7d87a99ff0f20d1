import Osv.Mempool.PageBuffer
import Osv.Lib.Transition

/-!
# The page allocator as a state machine

`core/mempool.cc` keeps the machine's free memory in `free_page_ranges` and serves it through
a handful of entry points: `malloc_large` and `free_large` (blocks of whole pages behind a
one-page header), `alloc_huge_page` and `free_huge_page` (aligned blocks without a header),
`early_alloc_page` and `early_free_page` (single pages before the SMP allocator is up), and the
per-cpu page buffers, filled from and drained to the free list by `refill_page_buffer` and
`unfill_page_buffer` and used by `alloc_page_local` and `free_page_local`.  Memory enters the
allocator through `free_initial_memory_range`.

Here those calls are the steps of one labelled transition system, `pageAllocator`, over a
state that holds the free list, the page buffers and — bookkeeping of the proofs, which the
code does not store — the blocks currently handed out and the bytes given so far.  What a
caller promises (a block is freed only while it is allocated, with the size it was allocated
with; boot regions do not overlap) is a premise of the step.

**What the allocator keeps.**  `Inv` says that the free list is sorted, page aligned and fully
coalesced, that each page buffer holds at most `pageBufferMax` aligned pages, and that the
free ranges, the page buffers and the allocated blocks together cover each byte given to the
allocator exactly once.  `inv_reachable` proves it of every state reachable by steps whose
huge-page requests are at most `2 ^ 31` bytes.

**Where it breaks.**  `alloc_huge_page` computes the size of the free tail above the huge page
in an `int`.  For `N = 2 ^ 32` and a free range of `2 ^ 33` bytes starting at `2 ^ 31`, the
tail holds `2 ^ 31` bytes, the `int` reads `-2 ^ 31`, and the tail is neither freed nor
handed out: `allocHugePage_loses_tail`.
-/

namespace Osv.Mempool

open Transition

/-! ## The entry points that free memory -/

/-- `free_page_range(void* addr, size_t size)`: a header for `size` bytes is written at `addr`
and the range goes back to the free list. -/
def freePageRange (addr size : ℕ) (free : List PageRange) : List PageRange :=
  freePageRangeLocked ⟨addr, size⟩ free

/-- `free_large(obj)`: the block's header is the page below the object, and it still holds the
size `malloc_large` wrote there. -/
def freeLarge (obj headerSize : ℕ) (free : List PageRange) : List PageRange :=
  freePageRange (obj - pageSize) headerSize free

/-- `free_huge_page(v, N)`. -/
def freeHugePage (v N : ℕ) (free : List PageRange) : List PageRange :=
  freePageRange v N free

/-- `early_free_page(v)`. -/
def earlyFreePage (v : ℕ) (free : List PageRange) : List PageRange :=
  freePageRange v pageSize free

/-! ## States and steps -/

/-- The allocator's state for `ncpus` cpus.  `free` and `pbuf` are the code's data;
`large`, `huge` and `pages` record what is handed out (`malloc_large` blocks with their
header, huge pages, single pages) and `given` the bytes `free_initial_memory_range` has taken
in. -/
structure State (ncpus : ℕ) where
  free : List PageRange
  pbuf : Fin ncpus → List ℕ
  large : List PageRange
  huge : List PageRange
  pages : List ℕ
  given : List ℕ

/-- The calls of the allocator, with the arguments the code receives. -/
inductive Op (ncpus : ℕ) where
  | freeInitialMemoryRange (addr size : ℕ)
  | mallocLarge (size : ℕ)
  | freeLarge (obj : ℕ)
  | allocHugePage (N : ℕ)
  | freeHugePage (v N : ℕ)
  | earlyAllocPage
  | earlyFreePage (v : ℕ)
  | refillPageBuffer (cpu : Fin ncpus)
  | unfillPageBuffer (cpu : Fin ncpus)
  | allocPageLocal (cpu : Fin ncpus)
  | freePageLocal (cpu : Fin ncpus) (v : ℕ)

variable {n : ℕ}

/-- The effect of `free_initial_memory_range` once the region has been trimmed to pages. -/
def State.freeInitial (s : State n) : Option PageRange → State n
  | none => s
  | some r => { s with free := freePageRange r.addr r.size s.free, given := s.given ++ r.cells }

/-- One call of the allocator.  Calls that `abort()` (no memory for `malloc_large`,
`alloc_huge_page`, `early_alloc_page` or `refill_page_buffer`) take no step; calls that fail
softly (`alloc_page_local` on an empty buffer, `free_page_local` on a full one) leave the
state as it is. -/
inductive Step : State n → Op n → State n → Prop where
  /-- The boot code hands over regions of the memory map, which do not overlap. -/
  | freeInitialMemoryRange {s : State n} {addr size : ℕ}
      (hfresh : List.Disjoint (List.range' addr size) s.given) :
      Step s (.freeInitialMemoryRange addr size) (s.freeInitial (freeInitialMemoryRange addr size))
  /-- `std_malloc` sends only sizes below `2 ^ 63` here. -/
  | mallocLarge {s : State n} {size : ℕ} {b : PageRange} {free' : List PageRange}
      (hsize : size < 2 ^ 63) (h : mallocLarge size s.free = some (b, free')) :
      Step s (.mallocLarge size) { s with free := free', large := b :: s.large }
  | freeLarge {s : State n} {b : PageRange} (hb : b ∈ s.large) :
      Step s (.freeLarge (b.addr + pageSize))
        { s with free := freeLarge (b.addr + pageSize) b.size s.free, large := s.large.erase b }
  /-- The address arithmetic of `alloc_huge_page` needs `N` to be a power of two. -/
  | allocHugePage {s : State n} {N ret : ℕ} {free' : List PageRange}
      (hN : ∃ k, N = 2 ^ k) (hpage : pageSize ∣ N) (h : allocHugePage N s.free = some (ret, free')) :
      Step s (.allocHugePage N) { s with free := free', huge := ⟨ret, N⟩ :: s.huge }
  | freeHugePage {s : State n} {v N : ℕ} (hb : ⟨v, N⟩ ∈ s.huge) :
      Step s (.freeHugePage v N)
        { s with free := freeHugePage v N s.free, huge := s.huge.erase ⟨v, N⟩ }
  | earlyAllocPage {s : State n} {page : ℕ} {free' : List PageRange}
      (h : earlyAllocPage s.free = some (page, free')) :
      Step s .earlyAllocPage { s with free := free', pages := page :: s.pages }
  | earlyFreePage {s : State n} {v : ℕ} (hv : v ∈ s.pages) :
      Step s (.earlyFreePage v) { s with free := earlyFreePage v s.free, pages := s.pages.erase v }
  | refillPageBuffer {s : State n} {c : Fin n} {buf : List ℕ} {free' : List PageRange}
      (h : refillPageBuffer (s.pbuf c) s.free = some (buf, free')) :
      Step s (.refillPageBuffer c) { s with free := free', pbuf := Function.update s.pbuf c buf }
  | unfillPageBuffer {s : State n} {c : Fin n} :
      Step s (.unfillPageBuffer c)
        { s with free := (unfillPageBuffer (s.pbuf c) s.free).2,
                 pbuf := Function.update s.pbuf c (unfillPageBuffer (s.pbuf c) s.free).1 }
  | allocPageLocalEmpty {s : State n} {c : Fin n} (h : allocPageLocal (s.pbuf c) = none) :
      Step s (.allocPageLocal c) s
  | allocPageLocal {s : State n} {c : Fin n} {v : ℕ} {buf : List ℕ}
      (h : allocPageLocal (s.pbuf c) = some (v, buf)) :
      Step s (.allocPageLocal c) { s with pbuf := Function.update s.pbuf c buf, pages := v :: s.pages }
  | freePageLocalFull {s : State n} {c : Fin n} {v : ℕ} (hv : v ∈ s.pages)
      (h : freePageLocal v (s.pbuf c) = none) :
      Step s (.freePageLocal c v) s
  | freePageLocal {s : State n} {c : Fin n} {v : ℕ} {buf : List ℕ} (hv : v ∈ s.pages)
      (h : freePageLocal v (s.pbuf c) = some buf) :
      Step s (.freePageLocal c v) { s with pbuf := Function.update s.pbuf c buf, pages := s.pages.erase v }

/-- Before the first `free_initial_memory_range` the allocator owns nothing. -/
def State.empty : State n where
  free := []
  pbuf := fun _ => []
  large := []
  huge := []
  pages := []
  given := []

/-- The page allocator of a machine with `n` cpus. -/
def pageAllocator (n : ℕ) : System (State n) (Op n) where
  init s := s = State.empty
  step := Step

/-! ## What the allocator keeps -/

/-- The bytes in the page buffers of all cpus. -/
def pbufCells (pbuf : Fin n → List ℕ) : List ℕ :=
  (List.finRange n).flatMap fun c => pagesCells (pbuf c)

/-- The bytes the allocator does not have on its free list: buffered or handed out. -/
def heldCells (s : State n) : List ℕ :=
  pbufCells s.pbuf ++ rangeCells s.large ++ rangeCells s.huge ++ pagesCells s.pages

/-- Every byte the allocator accounts for, with repetitions. -/
def footprint (s : State n) : List ℕ :=
  rangeCells s.free ++ heldCells s

/-- **The page allocator invariant.**  The free list is sorted, aligned and coalesced; the
buffers hold aligned pages and no more than `pageBufferMax` of them; handed-out blocks are
page aligned; and the free ranges, buffers and handed-out blocks cover the given bytes, each
exactly once. -/
structure Inv (s : State n) : Prop where
  free_ok : FreeListOk s.free
  pbuf_aligned : ∀ c, ∀ v ∈ s.pbuf c, pageSize ∣ v
  pbuf_bound : ∀ c, (s.pbuf c).length ≤ pageBufferMax
  large_valid : ∀ b ∈ s.large, b.Valid
  huge_valid : ∀ b ∈ s.huge, b.Valid
  pages_aligned : ∀ v ∈ s.pages, pageSize ∣ v
  given_nodup : s.given.Nodup
  conservation : (footprint s).Perm s.given

theorem coe_footprint (s : State n) :
    (footprint s : Multiset ℕ) = (rangeCells s.free : Multiset ℕ) + pbufCells s.pbuf +
      rangeCells s.large + rangeCells s.huge + pagesCells s.pages := by
  simp only [footprint, heldCells, ← Multiset.coe_add, add_assoc]

theorem large_subset_held (s : State n) : rangeCells s.large ⊆ heldCells s := by
  intro x hx
  simp [heldCells, hx]

theorem huge_subset_held (s : State n) : rangeCells s.huge ⊆ heldCells s := by
  intro x hx
  simp [heldCells, hx]

theorem pages_subset_held (s : State n) : pagesCells s.pages ⊆ heldCells s := by
  intro x hx
  simp only [heldCells, List.mem_append]
  exact Or.inr hx

/-- Replacing the buffer of cpu `c` trades its pages for the new ones. -/
theorem pbufCells_update (pbuf : Fin n → List ℕ) (c : Fin n) (buf : List ℕ) :
    (pbufCells (Function.update pbuf c buf) : Multiset ℕ) + pagesCells (pbuf c) =
      (pagesCells buf : Multiset ℕ) + pbufCells pbuf := by
  have hfun : (fun c' => pagesCells (Function.update pbuf c buf c')) =
      Function.update (fun c' => pagesCells (pbuf c')) c (pagesCells buf) := by
    funext c'
    exact Function.apply_update (fun _ => pagesCells) pbuf c buf c'
  have h := Runs.flatMap_update_perm (List.nodup_finRange n) (List.mem_finRange c)
    (fun c' => pagesCells (pbuf c')) (pagesCells buf)
  rw [← hfun] at h
  simpa only [pbufCells, Multiset.coe_add] using Multiset.coe_eq_coe.mpr h

/-- The pages of one buffer are among the pages of all buffers. -/
theorem pagesCells_le_pbufCells (pbuf : Fin n → List ℕ) (c : Fin n) :
    (pagesCells (pbuf c) : Multiset ℕ) ≤ pbufCells pbuf := by
  have h := pbufCells_update pbuf c []
  rw [pagesCells_nil, Multiset.coe_nil, zero_add] at h
  rw [← h]
  exact Multiset.le_add_left _ _

theorem coe_rangeCells_erase {l : List PageRange} {r : PageRange} (h : r ∈ l) :
    (rangeCells l : Multiset ℕ) = r.cells + rangeCells (l.erase r) := by
  rw [Multiset.coe_add, Multiset.coe_eq_coe]
  exact (List.perm_cons_erase h).flatMap_right _

theorem coe_pagesCells_erase {pages : List ℕ} {v : ℕ} (h : v ∈ pages) :
    (pagesCells pages : Multiset ℕ) = (⟨v, pageSize⟩ : PageRange).cells + pagesCells (pages.erase v) := by
  rw [Multiset.coe_add, Multiset.coe_eq_coe]
  exact (List.perm_cons_erase h).flatMap_right _

/-- Moving pages between the buffer of cpu `c`, the free list and the handed-out pages keeps
the footprint when the three together keep their bytes. -/
theorem coe_footprint_exchange (s : State n) (c : Fin n) {buf pages' : List ℕ}
    {free' : List PageRange}
    (h : (pagesCells buf : Multiset ℕ) + rangeCells free' + pagesCells pages' =
      (pagesCells (s.pbuf c) : Multiset ℕ) + rangeCells s.free + pagesCells s.pages) :
    (footprint { s with free := free', pbuf := Function.update s.pbuf c buf, pages := pages' } :
      Multiset ℕ) = footprint s := by
  have hup := pbufCells_update s.pbuf c buf
  rw [coe_footprint, coe_footprint]
  dsimp only
  apply add_right_cancel (b := (pagesCells (s.pbuf c) : Multiset ℕ))
  calc _ = (pbufCells (Function.update s.pbuf c buf) + pagesCells (s.pbuf c) : Multiset ℕ) +
          rangeCells free' + rangeCells s.large + rangeCells s.huge + pagesCells pages' := by abel
    _ = ((pagesCells buf : Multiset ℕ) + rangeCells free' + pagesCells pages') + pbufCells s.pbuf +
          rangeCells s.large + rangeCells s.huge := by rw [hup]; abel
    _ = _ := by rw [h]; abel

/-- Huge-page requests of at most `2 ^ 31` bytes, whose tail size fits the `int` that
`alloc_huge_page` keeps it in. -/
def SmallHuge : Op n → Prop
  | .allocHugePage N => N ≤ 2 ^ 31
  | _ => True

namespace Inv

variable {s : State n}

theorem footprint_nodup (hs : Inv s) : (footprint s).Nodup :=
  hs.conservation.nodup_iff.mpr hs.given_nodup

/-- What is held is not free. -/
theorem disjoint_held (hs : Inv s) : List.Disjoint (rangeCells s.free) (heldCells s) :=
  List.disjoint_iff_ne.mpr (List.nodup_append.mp hs.footprint_nodup).2.2

/-- Every byte accounted for has been given. -/
theorem subset_given (hs : Inv s) : footprint s ⊆ s.given :=
  fun _ hx => hs.conservation.subset hx

/-- A buffer and the free list share no byte. -/
theorem pbuf_free_nodup (hs : Inv s) (c : Fin n) :
    (pagesCells (s.pbuf c) ++ rangeCells s.free).Nodup := by
  have hle : ((pagesCells (s.pbuf c) ++ rangeCells s.free : List ℕ) : Multiset ℕ) ≤ footprint s := by
    rw [← Multiset.coe_add, coe_footprint, add_comm]
    calc (rangeCells s.free : Multiset ℕ) + pagesCells (s.pbuf c)
        ≤ (rangeCells s.free : Multiset ℕ) + pbufCells s.pbuf :=
          add_le_add le_rfl (pagesCells_le_pbufCells s.pbuf c)
      _ ≤ _ := le_add_right (le_add_right (le_add_right le_rfl))
  exact Multiset.coe_nodup.mp (Multiset.nodup_of_le hle (Multiset.coe_nodup.mpr hs.footprint_nodup))

/-- A valid range none of whose bytes is free goes back to the free list with its bytes. -/
theorem release (hs : Inv s) {r : PageRange} (hr : r.Valid) (hheld : r.cells ⊆ heldCells s) :
    FreeListOk (freePageRangeLocked r s.free) ∧
      (rangeCells (freePageRangeLocked r s.free) : Multiset ℕ) = r.cells + rangeCells s.free := by
  have hdisj : List.Disjoint r.cells (rangeCells s.free) :=
    fun _ hx hfree => hs.disjoint_held hfree (hheld hx)
  obtain ⟨hok, hperm⟩ := freePageRangeLocked_spec hs.free_ok hr hdisj
  exact ⟨hok, by rw [Multiset.coe_add]; exact Multiset.coe_eq_coe.mpr hperm⟩

/-- The footprint is kept by a step that keeps its bytes and gives nothing new. -/
theorem conservation_of_eq (hs : Inv s) {t : State n}
    (h : (footprint t : Multiset ℕ) = footprint s) (hg : t.given = s.given) :
    (footprint t).Perm t.given := by
  rw [hg, ← Multiset.coe_eq_coe, h]
  exact Multiset.coe_eq_coe.mpr hs.conservation

/-! ## One step of each entry point -/

theorem step_freeInitial (hs : Inv s) {addr size : ℕ}
    (hfresh : List.Disjoint (List.range' addr size) s.given) :
    Inv (s.freeInitial (freeInitialMemoryRange addr size)) := by
  cases h : freeInitialMemoryRange addr size with
  | none => exact hs
  | some r =>
      obtain ⟨hr, hlo, hhi⟩ := freeInitialMemoryRange_spec h
      have hsub : r.cells ⊆ List.range' addr size := by
        intro x hx
        rw [Runs.mem_cells] at hx
        rw [List.mem_range'_1]
        omega
      have hnew : List.Disjoint r.cells s.given := fun _ hx hg => hfresh (hsub hx) hg
      have hfree : List.Disjoint r.cells (rangeCells s.free) :=
        fun _ hx hf => hnew hx (hs.subset_given (List.mem_append_left _ hf))
      obtain ⟨hok, hperm⟩ := freePageRangeLocked_spec hs.free_ok hr hfree
      refine { hs with free_ok := hok, given_nodup := ?_, conservation := ?_ }
      · exact List.nodup_append.mpr
          ⟨hs.given_nodup, Runs.cells_nodup r, List.disjoint_iff_ne.mp hnew.symm⟩
      · show (rangeCells (freePageRangeLocked r s.free) ++ heldCells s).Perm (s.given ++ r.cells)
        have hadd : (rangeCells (freePageRangeLocked r s.free) ++ heldCells s).Perm
            (r.cells ++ footprint s) := by
          rw [footprint, ← List.append_assoc]
          exact hperm.append_right _
        exact (hadd.trans (hs.conservation.append_left _)).trans List.perm_append_comm

theorem step_mallocLarge (hs : Inv s) {size : ℕ} {b : PageRange} {free' : List PageRange}
    (h : mallocLarge size s.free = some (b, free')) :
    Inv { s with free := free', large := b :: s.large } := by
  have hpos : 0 < alignUp size pageSize + pageSize := Nat.add_pos_right _ pageSize_pos
  obtain ⟨hok, hb, -, -, hperm⟩ :=
    mallocLargeFit_spec (mallocLarge_size_dvd size) hpos hs.free_ok h
  refine { hs with free_ok := hok, large_valid := List.forall_mem_cons.mpr ⟨hb, hs.large_valid⟩,
                   conservation := hs.conservation_of_eq ?_ rfl }
  rw [coe_footprint, coe_footprint, Multiset.coe_eq_coe.mpr hperm]
  dsimp only
  simp only [rangeCells, Runs.footprint_cons, ← Multiset.coe_add]
  abel

theorem step_freeLarge (hs : Inv s) {b : PageRange} (hb : b ∈ s.large) :
    Inv { s with free := freeLarge (b.addr + pageSize) b.size s.free, large := s.large.erase b } := by
  have hheader : freeLarge (b.addr + pageSize) b.size s.free = freePageRangeLocked b s.free := by
    simp only [freeLarge, freePageRange, Nat.add_sub_cancel]
  obtain ⟨hok, hF⟩ := hs.release (hs.large_valid b hb)
    (fun _ hx => large_subset_held s (Runs.cells_subset_footprint hb hx))
  rw [hheader]
  refine { hs with free_ok := hok, large_valid := fun x hx => hs.large_valid x (List.mem_of_mem_erase hx),
                   conservation := hs.conservation_of_eq ?_ rfl }
  rw [coe_footprint, coe_footprint]
  dsimp only
  rw [hF, coe_rangeCells_erase hb]
  abel

theorem step_allocHugePage (hs : Inv s) {N ret : ℕ} {free' : List PageRange} (hN : ∃ k, N = 2 ^ k)
    (hpage : pageSize ∣ N) (hsmall : N ≤ 2 ^ 31) (h : allocHugePage N s.free = some (ret, free')) :
    Inv { s with free := free', huge := ⟨ret, N⟩ :: s.huge } := by
  obtain ⟨k, rfl⟩ := hN
  obtain ⟨hok, hb, hperm⟩ := allocHugePage_spec hpage (Nat.two_pow_pos k) hsmall hs.free_ok h
  refine { hs with free_ok := hok, huge_valid := List.forall_mem_cons.mpr ⟨hb, hs.huge_valid⟩,
                   conservation := hs.conservation_of_eq ?_ rfl }
  rw [coe_footprint, coe_footprint, Multiset.coe_eq_coe.mpr hperm]
  dsimp only
  simp only [rangeCells, Runs.footprint_cons, ← Multiset.coe_add]
  abel

theorem step_freeHugePage (hs : Inv s) {v N : ℕ} (hb : ⟨v, N⟩ ∈ s.huge) :
    Inv { s with free := freeHugePage v N s.free, huge := s.huge.erase ⟨v, N⟩ } := by
  obtain ⟨hok, hF⟩ := hs.release (hs.huge_valid _ hb)
    (fun _ hx => huge_subset_held s (Runs.cells_subset_footprint hb hx))
  refine { hs with free_ok := hok, huge_valid := fun x hx => hs.huge_valid x (List.mem_of_mem_erase hx),
                   conservation := hs.conservation_of_eq ?_ rfl }
  rw [coe_footprint, coe_footprint]
  dsimp only
  rw [freeHugePage, freePageRange, hF, coe_rangeCells_erase hb]
  abel

theorem step_earlyAllocPage (hs : Inv s) {page : ℕ} {free' : List PageRange}
    (h : earlyAllocPage s.free = some (page, free')) :
    Inv { s with free := free', pages := page :: s.pages } := by
  obtain ⟨hok, hp, hperm⟩ := earlyAllocPage_spec hs.free_ok h
  refine { hs with free_ok := hok, pages_aligned := List.forall_mem_cons.mpr ⟨hp.1, hs.pages_aligned⟩,
                   conservation := hs.conservation_of_eq ?_ rfl }
  rw [coe_footprint, coe_footprint, Multiset.coe_eq_coe.mpr hperm]
  dsimp only
  simp only [pagesCells_cons, ← Multiset.coe_add]
  abel

theorem step_earlyFreePage (hs : Inv s) {v : ℕ} (hv : v ∈ s.pages) :
    Inv { s with free := earlyFreePage v s.free, pages := s.pages.erase v } := by
  have hr : (⟨v, pageSize⟩ : PageRange).Valid := ⟨hs.pages_aligned v hv, dvd_refl _, pageSize_pos⟩
  have hcells : (⟨v, pageSize⟩ : PageRange).cells ⊆ pagesCells s.pages := fun _ hx =>
    List.mem_flatMap.mpr ⟨v, hv, hx⟩
  obtain ⟨hok, hF⟩ := hs.release hr (fun _ hx => pages_subset_held s (hcells hx))
  refine { hs with free_ok := hok,
                   pages_aligned := fun x hx => hs.pages_aligned x (List.mem_of_mem_erase hx),
                   conservation := hs.conservation_of_eq ?_ rfl }
  rw [coe_footprint, coe_footprint]
  dsimp only
  rw [earlyFreePage, freePageRange, hF, coe_pagesCells_erase hv]
  abel

/-- A new buffer for cpu `c` keeps the buffer facts if it holds few enough aligned pages. -/
theorem pbuf_update (hs : Inv s) {c : Fin n} {buf : List ℕ} (haligned : ∀ v ∈ buf, pageSize ∣ v)
    (hbound : buf.length ≤ pageBufferMax) :
    (∀ c', ∀ v ∈ Function.update s.pbuf c buf c', pageSize ∣ v) ∧
      ∀ c', (Function.update s.pbuf c buf c').length ≤ pageBufferMax :=
  ⟨(Function.forall_update_iff s.pbuf (fun _ l => ∀ v ∈ l, pageSize ∣ v)).mpr
      ⟨haligned, fun c' _ => hs.pbuf_aligned c'⟩,
    (Function.forall_update_iff s.pbuf (fun _ l => l.length ≤ pageBufferMax)).mpr
      ⟨hbound, fun c' _ => hs.pbuf_bound c'⟩⟩

theorem step_refillPageBuffer (hs : Inv s) {c : Fin n} {buf : List ℕ} {free' : List PageRange}
    (h : refillPageBuffer (s.pbuf c) s.free = some (buf, free')) :
    Inv { s with free := free', pbuf := Function.update s.pbuf c buf } := by
  have hloop : refillLoop ((pageBufferMax + 1) / 2) (s.pbuf c) s.free = (buf, free') := by
    unfold refillPageBuffer at h
    split_ifs at h
    exact Option.some.inj h
  have hspec := @refillLoop_spec ((pageBufferMax + 1) / 2) (s.pbuf c) s.free hs.free_ok
    (hs.pbuf_aligned c)
  rw [hloop] at hspec
  obtain ⟨⟨hok, haligned, hcells⟩, hlen⟩ := hspec
  have hbound : buf.length ≤ pageBufferMax :=
    hlen.trans (max_le (hs.pbuf_bound c) (by norm_num [pageBufferMax]))
  obtain ⟨hpa, hpb⟩ := hs.pbuf_update haligned hbound
  refine { hs with free_ok := hok, pbuf_aligned := hpa, pbuf_bound := hpb,
                   conservation := hs.conservation_of_eq (coe_footprint_exchange s c ?_) rfl }
  have hc := Multiset.coe_eq_coe.mpr hcells
  rw [← Multiset.coe_add, ← Multiset.coe_add] at hc
  rw [hc]

theorem step_unfillPageBuffer (hs : Inv s) (c : Fin n) :
    Inv { s with free := (unfillPageBuffer (s.pbuf c) s.free).2,
                 pbuf := Function.update s.pbuf c (unfillPageBuffer (s.pbuf c) s.free).1 } := by
  obtain ⟨⟨hok, haligned, hcells⟩, hlen⟩ :=
    unfillLoop_spec hs.free_ok (hs.pbuf_aligned c) (hs.pbuf_free_nodup c)
  obtain ⟨hpa, hpb⟩ := hs.pbuf_update haligned (hlen.trans (hs.pbuf_bound c))
  refine { hs with free_ok := hok, pbuf_aligned := hpa, pbuf_bound := hpb,
                   conservation := hs.conservation_of_eq (coe_footprint_exchange s c ?_) rfl }
  have hc := Multiset.coe_eq_coe.mpr hcells
  rw [← Multiset.coe_add, ← Multiset.coe_add] at hc
  rw [unfillPageBuffer, hc]

theorem step_allocPageLocal (hs : Inv s) {c : Fin n} {v : ℕ} {buf : List ℕ}
    (h : allocPageLocal (s.pbuf c) = some (v, buf)) :
    Inv { s with pbuf := Function.update s.pbuf c buf, pages := v :: s.pages } := by
  have hc := allocPageLocal_eq_some.mp h
  have haligned := hs.pbuf_aligned c
  have hlen := hs.pbuf_bound c
  rw [hc] at haligned hlen
  obtain ⟨hv, hbuf⟩ := List.forall_mem_cons.mp haligned
  obtain ⟨hpa, hpb⟩ := hs.pbuf_update hbuf (Nat.le_of_succ_le hlen)
  refine { hs with pbuf_aligned := hpa, pbuf_bound := hpb,
                   pages_aligned := List.forall_mem_cons.mpr ⟨hv, hs.pages_aligned⟩,
                   conservation := hs.conservation_of_eq (coe_footprint_exchange s c ?_) rfl }
  rw [hc]
  simp only [pagesCells_cons, ← Multiset.coe_add]
  abel

theorem step_freePageLocal (hs : Inv s) {c : Fin n} {v : ℕ} {buf : List ℕ} (hv : v ∈ s.pages)
    (h : freePageLocal v (s.pbuf c) = some buf) :
    Inv { s with pbuf := Function.update s.pbuf c buf, pages := s.pages.erase v } := by
  obtain ⟨hfull, rfl⟩ := freePageLocal_eq_some.mp h
  have hbound : (v :: s.pbuf c).length ≤ pageBufferMax := by
    have := hs.pbuf_bound c
    rw [List.length_cons]
    omega
  obtain ⟨hpa, hpb⟩ :=
    hs.pbuf_update (List.forall_mem_cons.mpr ⟨hs.pages_aligned v hv, hs.pbuf_aligned c⟩) hbound
  refine { hs with pbuf_aligned := hpa, pbuf_bound := hpb,
                   pages_aligned := fun x hx => hs.pages_aligned x (List.mem_of_mem_erase hx),
                   conservation := hs.conservation_of_eq (coe_footprint_exchange s c ?_) rfl }
  rw [coe_pagesCells_erase hv]
  simp only [pagesCells_cons, ← Multiset.coe_add]
  abel

/-- **Every step keeps the invariant**, when a huge-page request is at most `2 ^ 31` bytes. -/
theorem step (hs : Inv s) {op : Op n} {t : State n} (hsmall : SmallHuge op) (h : Step s op t) :
    Inv t := by
  cases h with
  | freeInitialMemoryRange hfresh => exact hs.step_freeInitial hfresh
  | mallocLarge _ h => exact hs.step_mallocLarge h
  | freeLarge hb => exact hs.step_freeLarge hb
  | allocHugePage hN hpage h => exact hs.step_allocHugePage hN hpage hsmall h
  | freeHugePage hb => exact hs.step_freeHugePage hb
  | earlyAllocPage h => exact hs.step_earlyAllocPage h
  | earlyFreePage hv => exact hs.step_earlyFreePage hv
  | refillPageBuffer h => exact hs.step_refillPageBuffer h
  | unfillPageBuffer => exact hs.step_unfillPageBuffer _
  | allocPageLocalEmpty _ => exact hs
  | allocPageLocal h => exact hs.step_allocPageLocal h
  | freePageLocalFull _ _ => exact hs
  | freePageLocal hv h => exact hs.step_freePageLocal hv h

theorem empty : Inv (State.empty : State n) where
  free_ok := FreeListOk.nil
  pbuf_aligned _ _ hv := absurd hv List.not_mem_nil
  pbuf_bound _ := Nat.zero_le _
  large_valid _ hb := absurd hb List.not_mem_nil
  huge_valid _ hb := absurd hb List.not_mem_nil
  pages_aligned _ hv := absurd hv List.not_mem_nil
  given_nodup := List.nodup_nil
  conservation := by simp [footprint, heldCells, pbufCells, State.empty]

end Inv

/-- **The page allocator keeps its invariant.**  In every state reachable from an empty
allocator by calls whose huge-page requests are at most `2 ^ 31` bytes, the free list is
sorted, aligned and coalesced, and the free ranges, the page buffers and the handed-out blocks
cover every byte given to the allocator exactly once. -/
theorem inv_reachable {s : State n} (hs : Reachable ((pageAllocator n).restrict SmallHuge) s) :
    Inv s := by
  refine Inductive.reachable ⟨?_, ?_⟩ hs
  · rintro s rfl
    exact Inv.empty
  · rintro s op t hinv ⟨hsmall, hstep⟩
    exact hinv.step hsmall hstep

/-! ## The lost tail of a huge page -/

/-- **`alloc_huge_page` loses memory.**  After `free_initial_memory_range(0x80000000,
0x200000000)`, a request for a huge page of `2 ^ 32` bytes returns `2 ^ 32` and keeps only
`[2 ^ 31, 2 ^ 32)` free: the tail `[2 ^ 33, 2 ^ 33 + 2 ^ 31)`, whose size does not fit the
`int endsize`, is given but neither free, buffered nor handed out. -/
theorem allocHugePage_loses_tail :
    allocHugePage (2 ^ 32) [⟨2 ^ 31, 2 ^ 33⟩] = some (2 ^ 32, [⟨2 ^ 31, 2 ^ 31⟩]) ∧
      ∃ s : State 1, Reachable (pageAllocator 1) s ∧ 2 ^ 33 ∈ s.given ∧ 2 ^ 33 ∉ footprint s := by
  have hboot : freeInitialMemoryRange (2 ^ 31) (2 ^ 33) = some ⟨2 ^ 31, 2 ^ 33⟩ := by decide
  have hhuge : allocHugePage (2 ^ 32) [⟨2 ^ 31, 2 ^ 33⟩] = some (2 ^ 32, [⟨2 ^ 31, 2 ^ 31⟩]) := by
    decide
  have hs1 : (State.empty : State 1).freeInitial (freeInitialMemoryRange (2 ^ 31) (2 ^ 33)) =
      { State.empty with free := [⟨2 ^ 31, 2 ^ 33⟩], given := (⟨2 ^ 31, 2 ^ 33⟩ : PageRange).cells } := by
    rw [hboot]
    rfl
  have hr1 : Reachable (pageAllocator 1)
      { State.empty with free := [⟨2 ^ 31, 2 ^ 33⟩], given := (⟨2 ^ 31, 2 ^ 33⟩ : PageRange).cells } :=
    hs1 ▸ .step (.init rfl) (.freeInitialMemoryRange (List.disjoint_nil_right _))
  refine ⟨hhuge, _, .step hr1 (.allocHugePage ⟨32, rfl⟩ ⟨2 ^ 20, rfl⟩ hhuge), ?_, ?_⟩
  · simp only [PageRange.cells, Runs.mem_cells]
    norm_num
  · simp [footprint, heldCells, pbufCells, State.empty]

end Osv.Mempool
