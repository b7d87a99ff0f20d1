import Osv.Mempool.PageRange

/-!
# Object pools

Requests of at most half a page are served by `pool`s (`core/mempool.cc`, `include/mempool.hh`).
A pool hands out objects of one size carved from whole pages: `pool::add_page` writes a
`page_header` at the start of a fresh page and threads the rest of the page, from the top down,
onto the header's `local_free` list.  `malloc` keeps one pool for each power of two up to half
a page, `malloc_pools`, and picks one with `ilog2_roundup`.

**Where the objects lie.**  `mem_addPage` says exactly which addresses `add_page` carves: the
slots `page + page_size - k * size` that do not reach into the header.  From it: every object
lies in `[page + sizeof(page_header), page + page_size)` (`addPage_bounds`), it is aligned to
its size when the size divides the page size (`addPage_aligned`), the objects of one page are
disjoint (`addPage_pairwise`), and `pool::from_object` finds the page's header again
(`toHeader_addPage`).

**Which pool.**  `ilog2Roundup_spec`: `ilog2_roundup(n)` is the least `r` with `n ≤ 2 ^ r`,
so the pool `malloc` picks holds objects at least as large as the request
(`mallocPool_size_ilog2Roundup`).
-/

namespace Osv.Mempool

/-! ## Sizes -/

/-- `sizeof(pool::page_header)` on x86-64: `owner` (a pointer), `cpu_id` and `nalloc` (two
`unsigned`), the list hook `free_link` (two pointers) and `local_free` (a pointer). -/
def pageHeaderSize : ℕ := 8 + 4 + 4 + 16 + 8

/-- `pool::max_object_size`. -/
def maxObjectSize : ℕ := pageSize / 2

/-- `pool::min_object_size`: `sizeof(pool::free_object)`, one pointer. -/
def minObjectSize : ℕ := 8

/-- `count_leading_zeros(unsigned long)`, that is `__builtin_clzl`, for a non-zero argument. -/
def countLeadingZeros (n : ℕ) : ℕ := 64 - Nat.size n

/-- `ilog2_roundup(n)` for a `size_t n`. -/
def ilog2Roundup (n : ℕ) : ℕ :=
  if n ≤ 1 then 0 else 64 - countLeadingZeros (n - 1)

/-- `ilog2_roundup_constexpr(n)`, which sizes `malloc_pools`. -/
def ilog2RoundupConstexpr (n : ℕ) : ℕ :=
  if n ≤ 1 then 0 else 1 + ilog2RoundupConstexpr ((n >>> 1) + (n &&& 1))
termination_by n
decreasing_by
  rw [Nat.shiftRight_one, Nat.and_one_is_mod]
  omega

/-- `malloc_pool::compute_object_size(pos)`. -/
def computeObjectSize (pos : ℕ) : ℕ := min (2 ^ pos) maxObjectSize

/-! ## Pools and their pages -/

/-- A pool of objects of one size.  The constructor asserts that an object fits in a page
beside the header; every pool of the code has objects of at least one byte. -/
structure Pool where
  size : ℕ
  size_pos : 0 < size
  fits : size + pageHeaderSize ≤ pageSize

/-- The number of entries of `malloc_pools`. -/
def mallocPoolCount : ℕ := ilog2RoundupConstexpr pageSize + 1

theorem computeObjectSize_pos (pos : ℕ) : 0 < computeObjectSize pos :=
  lt_min (Nat.two_pow_pos pos) (by norm_num [maxObjectSize, pageSize])

theorem computeObjectSize_fits (pos : ℕ) : computeObjectSize pos + pageHeaderSize ≤ pageSize := by
  have : computeObjectSize pos ≤ maxObjectSize := min_le_right _ _
  unfold maxObjectSize pageSize at this
  unfold pageHeaderSize pageSize
  omega

/-- The pool at position `pos` of `malloc_pools`. -/
def mallocPool (pos : ℕ) : Pool where
  size := computeObjectSize pos
  size_pos := computeObjectSize_pos pos
  fits := computeObjectSize_fits pos

/-- The loop of `pool::add_page`: `p` runs down from the top slot of the page, one object at a
time, while it lies above the header, and each object is pushed on `local_free`. -/
def Pool.addPageLoop (pool : Pool) (page p : ℕ) (localFree : List ℕ) : List ℕ :=
  if page + pageHeaderSize ≤ p then pool.addPageLoop page (p - pool.size) (p :: localFree)
  else localFree
termination_by p
decreasing_by
  have := pool.size_pos
  unfold pageHeaderSize at *
  omega

/-- `pool::add_page` on the fresh page `page`: the `local_free` list of its header. -/
def Pool.addPage (pool : Pool) (page : ℕ) : List ℕ :=
  pool.addPageLoop page (page + pageSize - pool.size) []

/-- `pool::to_header(object)`: the page an object lies in, where its header is. -/
def toHeader (object : ℕ) : ℕ := alignDown object pageSize

/-- `pool::from_object(object)`: the `owner` recorded in the header of the object's page, for
a memory whose page headers name the pools `owner`. -/
def fromObject (owner : ℕ → Pool) (object : ℕ) : Pool := owner (toHeader object)

/-! ## `ilog2_roundup` -/

/-- **`ilog2_roundup(n)` is the least `r` with `n ≤ 2 ^ r`**, for every `size_t n`. -/
theorem ilog2Roundup_spec {n : ℕ} (hn : n ≤ 2 ^ 64) :
    n ≤ 2 ^ ilog2Roundup n ∧ ∀ r, n ≤ 2 ^ r → ilog2Roundup n ≤ r := by
  unfold ilog2Roundup countLeadingZeros
  split_ifs with h1
  · exact ⟨by simpa using h1, fun r _ => Nat.zero_le r⟩
  · have hsize : Nat.size (n - 1) ≤ 64 := Nat.size_le.mpr (by omega)
    rw [Nat.sub_sub_self hsize]
    refine ⟨?_, fun r hr => Nat.size_le.mpr (by omega)⟩
    have := Nat.lt_size_self (n - 1)
    omega

theorem ilog2Roundup_le {n r : ℕ} (hn : n ≤ 2 ^ 64) (hr : n ≤ 2 ^ r) : ilog2Roundup n ≤ r :=
  (ilog2Roundup_spec hn).2 r hr

/-- The recursion of `ilog2_roundup_constexpr` computes the same least exponent. -/
theorem ilog2RoundupConstexpr_spec (n : ℕ) :
    n ≤ 2 ^ ilog2RoundupConstexpr n ∧ ∀ r, n ≤ 2 ^ r → ilog2RoundupConstexpr n ≤ r := by
  induction n using Nat.strong_induction_on with
  | _ n ih =>
      rw [ilog2RoundupConstexpr, Nat.shiftRight_one, Nat.and_one_is_mod]
      split_ifs with h1
      · exact ⟨by simpa using h1, fun r _ => Nat.zero_le r⟩
      · -- one halving step, rounding up, lowers the exponent by one
        obtain ⟨hup, hleast⟩ := ih (n / 2 + n % 2) (by omega)
        refine ⟨?_, fun r hr => ?_⟩
        · rw [pow_add, pow_one, mul_comm]
          omega
        · obtain ⟨r, rfl⟩ : ∃ r', r = r' + 1 := by
            refine ⟨r - 1, (Nat.succ_pred_eq_of_pos ?_).symm⟩
            refine Nat.pos_of_ne_zero fun h => ?_
            rw [h, pow_zero] at hr
            omega
          have hhalf : n / 2 + n % 2 ≤ 2 ^ r := by
            rw [pow_succ] at hr
            omega
          have := hleast r hhalf
          omega

theorem ilog2RoundupConstexpr_eq {n : ℕ} (hn : n ≤ 2 ^ 64) :
    ilog2RoundupConstexpr n = ilog2Roundup n := by
  obtain ⟨hup, hleast⟩ := ilog2RoundupConstexpr_spec n
  obtain ⟨hup', hleast'⟩ := ilog2Roundup_spec hn
  exact le_antisymm (hleast _ hup') (hleast' _ hup)

/-- `malloc_pools` has thirteen pools, for the exponents `0, …, 12`. -/
theorem mallocPoolCount_eq : mallocPoolCount = 13 := by
  -- the constexpr recursion is `ilog2_roundup`, which `count_leading_zeros` computes
  rw [mallocPoolCount, ilog2RoundupConstexpr_eq (by norm_num [pageSize])]
  decide

/-! ## The pool `malloc` picks -/

theorem computeObjectSize_of_le {pos : ℕ} (h : pos ≤ 11) : computeObjectSize pos = 2 ^ pos := by
  have : 2 ^ pos ≤ 2 ^ 11 := Nat.pow_le_pow_right (by norm_num) h
  unfold computeObjectSize maxObjectSize pageSize
  omega

/-- **The pool for a request holds objects at least as large as the request.**  For a request
of `size ≤ max_object_size` bytes, `ilog2_roundup(max(size, min_object_size))` names one of the
`malloc_pools`, and its objects are that power of two in size. -/
theorem mallocPool_size_ilog2Roundup {size : ℕ} (h : size ≤ maxObjectSize) :
    ilog2Roundup (max size minObjectSize) < mallocPoolCount ∧
      (mallocPool (ilog2Roundup (max size minObjectSize))).size =
        2 ^ ilog2Roundup (max size minObjectSize) ∧
      size ≤ (mallocPool (ilog2Roundup (max size minObjectSize))).size := by
  have hmax : max size minObjectSize ≤ 2 ^ 11 := by
    unfold maxObjectSize pageSize at h
    unfold minObjectSize
    omega
  obtain ⟨hup, -⟩ := ilog2Roundup_spec (hmax.trans (by norm_num))
  have hle : ilog2Roundup (max size minObjectSize) ≤ 11 := ilog2Roundup_le (hmax.trans (by norm_num)) hmax
  have hsize : (mallocPool (ilog2Roundup (max size minObjectSize))).size =
      2 ^ ilog2Roundup (max size minObjectSize) := computeObjectSize_of_le hle
  refine ⟨by rw [mallocPoolCount_eq]; omega, hsize, ?_⟩
  rw [hsize]
  exact (le_max_left _ _).trans hup

/-! ## The objects of a page -/

theorem size_le_pageSize (pool : Pool) : pool.size ≤ pageSize := by
  have := pool.fits
  omega

/-- The loop of `add_page` adds every slot at or below `p`, a whole number of objects below
it, that does not reach into the header. -/
theorem mem_addPageLoop (pool : Pool) (page p : ℕ) (localFree : List ℕ) (x : ℕ) :
    x ∈ pool.addPageLoop page p localFree ↔
      x ∈ localFree ∨ page + pageHeaderSize ≤ x ∧ x ≤ p ∧ pool.size ∣ p - x := by
  have hhdr : 0 < pageHeaderSize := by norm_num [pageHeaderSize]
  fun_induction pool.addPageLoop page p localFree with
  | case1 p localFree hp ih =>
      refine ih.trans ?_
      rw [List.mem_cons]
      constructor
      · rintro ((rfl | hx) | ⟨hlo, hle, hdvd⟩)
        · exact Or.inr ⟨hp, le_rfl, by simp⟩
        · exact Or.inl hx
        · have hpx : p - x = p - pool.size - x + pool.size := by omega
          exact Or.inr ⟨hlo, by omega, by rw [hpx]; exact Nat.dvd_add_self_right.mpr hdvd⟩
      · rintro (hx | ⟨hlo, hle, hdvd⟩)
        · exact Or.inl (Or.inr hx)
        · rcases Nat.eq_or_lt_of_le hle with rfl | hlt
          · exact Or.inl (Or.inl rfl)
          · -- an object below `p` is at least one object below it
            have hgap : pool.size ≤ p - x := Nat.le_of_dvd (by omega) hdvd
            have hpx : p - x = p - pool.size - x + pool.size := by omega
            rw [hpx] at hdvd
            exact Or.inr ⟨hlo, by omega, Nat.dvd_add_self_right.mp hdvd⟩
  | case2 p localFree hp =>
      constructor
      · exact Or.inl
      · rintro (hx | ⟨hlo, hle, -⟩)
        · exact hx
        · omega

/-- **The objects `add_page` carves**: the slots of the page above the header whose distance
from the top slot is a whole number of objects. -/
theorem mem_addPage (pool : Pool) (page x : ℕ) :
    x ∈ pool.addPage page ↔ page + pageHeaderSize ≤ x ∧ x + pool.size ≤ page + pageSize ∧
      pool.size ∣ page + pageSize - pool.size - x := by
  have := size_le_pageSize pool
  rw [Pool.addPage, mem_addPageLoop]
  simp only [List.not_mem_nil, false_or]
  constructor
  · rintro ⟨hlo, hle, hdvd⟩
    exact ⟨hlo, by omega, hdvd⟩
  · rintro ⟨hlo, hle, hdvd⟩
    exact ⟨hlo, by omega, hdvd⟩

/-- Every object lies in `[page + sizeof(page_header), page + page_size)`. -/
theorem addPage_bounds {pool : Pool} {page x : ℕ} (hx : x ∈ pool.addPage page) :
    page + pageHeaderSize ≤ x ∧ x + pool.size ≤ page + pageSize :=
  let ⟨hlo, hhi, _⟩ := (mem_addPage pool page x).mp hx
  ⟨hlo, hhi⟩

/-- On an aligned page, every object is aligned to an object size that divides the page size. -/
theorem addPage_aligned {pool : Pool} {page x : ℕ} (hdvd : pool.size ∣ pageSize)
    (hpage : pageSize ∣ page) (hx : x ∈ pool.addPage page) : pool.size ∣ x := by
  obtain ⟨-, hhi, hslot⟩ := (mem_addPage pool page x).mp hx
  have htop : pool.size ∣ page + pageSize - pool.size :=
    Nat.dvd_sub (Nat.dvd_add (hdvd.trans hpage) hdvd) (dvd_refl _)
  have hx' : x = page + pageSize - pool.size - (page + pageSize - pool.size - x) := by omega
  rw [hx']
  exact Nat.dvd_sub htop hslot

theorem addPageLoop_pairwise {pool : Pool} {page : ℕ} (hpage : pool.size ≤ page) (p : ℕ)
    {localFree : List ℕ} (hsorted : localFree.Pairwise fun a b => a + pool.size ≤ b)
    (habove : ∀ y ∈ localFree, p + pool.size ≤ y) :
    (pool.addPageLoop page p localFree).Pairwise fun a b => a + pool.size ≤ b := by
  fun_induction pool.addPageLoop page p localFree with
  | case1 p localFree hp ih =>
      -- the slot pushed now lies one object below everything pushed before
      refine ih (List.pairwise_cons.mpr ⟨habove, hsorted⟩) ?_
      intro y hy
      rcases List.mem_cons.mp hy with rfl | hy
      · omega
      · have := habove y hy
        omega
  | case2 => exact hsorted

/-- **The objects of one page are disjoint**: `local_free` lists them in address order, each
at least one object past the one before. -/
theorem addPage_pairwise {pool : Pool} {page : ℕ} (hpage : pool.size ≤ page) :
    (pool.addPage page).Pairwise fun a b => a + pool.size ≤ b :=
  addPageLoop_pairwise hpage _ List.Pairwise.nil (fun _ hy => absurd hy List.not_mem_nil)

/-- The header of an object of an aligned page is the page. -/
theorem toHeader_addPage {pool : Pool} {page x : ℕ} (hpage : pageSize ∣ page)
    (hx : x ∈ pool.addPage page) : toHeader x = page := by
  obtain ⟨hlo, hhi⟩ := addPage_bounds hx
  obtain ⟨q, rfl⟩ := hpage
  have hd : x = pageSize * q + (x - pageSize * q) := by omega
  have hlt : x - pageSize * q < pageSize := by
    have := pool.size_pos
    omega
  unfold toHeader alignDown
  rw [hd, Nat.mul_add_div pageSize_pos, Nat.div_eq_of_lt hlt]
  ring

/-- **`pool::from_object` finds the pool an object came from**, once `add_page` has recorded
the pool as the owner in the page's header. -/
theorem fromObject_addPage {owner : ℕ → Pool} {pool : Pool} {page x : ℕ}
    (howner : owner page = pool) (hpage : pageSize ∣ page) (hx : x ∈ pool.addPage page) :
    fromObject owner x = pool := by
  rw [fromObject, toHeader_addPage hpage hx, howner]

end Osv.Mempool
