import Osv.Mempool.Pool

/-!
# `malloc` and `free`: which allocator a pointer belongs to

`std_malloc` (`core/mempool.cc`) sends a request to one of three allocators: before the pools
are up (`smp_allocator` unset) a small request gets a page of its own and the object starts
`non_mempool_obj_offset` bytes into it; afterwards it gets an object of the pool
`malloc_pools[ilog2_roundup(size)]`; a request of more than half a page gets a `malloc_large`
block, whose object starts right after a one-page header.  Nothing records which allocator a
pointer came from: `std_free` and `object_size` tell them apart by the pointer's offset in its
page alone.

**`std_free` is right.**  The offset is `non_mempool_obj_offset` for an early object, at least
`sizeof(page_header)` for a pool object and `0` for a large block (`offset_allocPage`,
`offset_poolAlloc`, `offset_mallocLarge`), so `std_free` returns every pointer to the allocator
it came from (`stdFree_returns`), a pool object to the pool named in its page's header.

**`object_size` is not.**  It has no case for the early offset: an early object is taken for a
pool object, and its size is read from a pool header that its page does not have
(`objectSize_allocPage`, `objectSize_early_reads_header`).

**`std_realloc` copies `min(size, object_size(object))` bytes.**  For a pool object that is
the pool's object size, the object's own extent (`stdRealloc_poolAlloc`).  For a large block it
is `large_object_size`, the `size` field of the header, which `malloc_large` set to the rounded
request *plus the header page*, truncated to `unsigned` (`stdRealloc_mallocLarge`): one page
more than the block holds after its header, and for requests from `2 ^ 32` on, far less
(`realloc_copies_past_large_object`).
-/

namespace Osv.Mempool

/-- `non_mempool_obj_offset`: where an object `malloc` serves from a page of its own begins. -/
def nonMempoolObjOffset : ℕ := 8

/-- What `std_malloc(size)` hands a request to. -/
inductive MallocCall where
  /-- `(ssize_t)size < 0`: `libc_error_ptr(ENOMEM)`, a null pointer -/
  | enomem
  /-- `alloc_page() + non_mempool_obj_offset` -/
  | allocPage
  /-- `malloc_pools[n].alloc()` -/
  | poolAlloc (n : ℕ)
  /-- `malloc_large(size)` -/
  | mallocLarge (size : ℕ)
  deriving DecidableEq, Repr

/-- `std_malloc(size)` for a `size_t size`, with the flag `smp_allocator`. -/
def stdMalloc (smpAllocator : Bool) (size : ℕ) : MallocCall :=
  if 2 ^ 63 ≤ size then .enomem
  else if size ≤ maxObjectSize then
    if smpAllocator then .poolAlloc (ilog2Roundup (max size minObjectSize)) else .allocPage
  else .mallocLarge size

/-- What `std_free(object)` calls. -/
inductive FreeCall where
  /-- a null pointer: nothing -/
  | nothing
  /-- `free_page(object - offset)` -/
  | freePage (page : ℕ)
  /-- `pool::from_object(object)->free(object)`: the pool named in the header at `header` -/
  | poolFree (header : ℕ)
  /-- `free_large(object)` -/
  | freeLarge (object : ℕ)
  deriving DecidableEq, Repr

/-- `std_free(object)`. -/
def stdFree (object : ℕ) : FreeCall :=
  if object = 0 then .nothing
  else
    let offset := object &&& (pageSize - 1)
    if offset = nonMempoolObjOffset then .freePage (object - offset)
    else if offset ≠ 0 then .poolFree (toHeader object)
    else .freeLarge object

/-- Where `object_size(object)` reads the size from. -/
inductive SizeCall where
  /-- `pool::from_object(object)->get_size()`: the pool named in the header at `header` -/
  | poolSize (header : ℕ)
  /-- `large_object_size(object)`: the header one page below the object -/
  | largeObjectSize (object : ℕ)
  deriving DecidableEq, Repr

/-- `object_size(object)`. -/
def objectSize (object : ℕ) : SizeCall :=
  if object &&& (pageSize - 1) ≠ 0 then .poolSize (toHeader object) else .largeObjectSize object

/-! ## What the allocators return -/

/-- The pointers the allocators behind `std_malloc` return: a null pointer for a refused
request, an object `non_mempool_obj_offset` into a page of its own, an object `add_page`
carved for the pool from an aligned page, and the page after the header of a `malloc_large`
block. -/
inductive Returns : MallocCall → ℕ → Prop where
  | enomem : Returns .enomem 0
  | allocPage {page : ℕ} (hpage : pageSize ∣ page) :
      Returns .allocPage (page + nonMempoolObjOffset)
  | poolAlloc {n page x : ℕ} (hpage : pageSize ∣ page) (hx : x ∈ (mallocPool n).addPage page) :
      Returns (.poolAlloc n) x
  | mallocLarge {size : ℕ} {b : PageRange} (hb : b.Valid) :
      Returns (.mallocLarge size) (b.addr + pageSize)

/-- The call of `std_free` that gives a pointer back to the allocator it came from. -/
def MallocCall.release : MallocCall → ℕ → FreeCall
  | .enomem, _ => .nothing
  | .allocPage, p => .freePage (p - nonMempoolObjOffset)
  | .poolAlloc _, p => .poolFree (toHeader p)
  | .mallocLarge _, p => .freeLarge p

/-! ## Page offsets -/

/-- `object & (page_size - 1)` is the offset of the object in its page. -/
theorem land_pageSize_sub_one (x : ℕ) : x &&& (pageSize - 1) = x % pageSize :=
  Nat.and_two_pow_sub_one_eq_mod x 12

theorem offset_of_aligned {page d : ℕ} (hpage : pageSize ∣ page) (hd : d < pageSize) :
    (page + d) &&& (pageSize - 1) = d := by
  rw [land_pageSize_sub_one, Nat.add_mod, Nat.mod_eq_zero_of_dvd hpage, zero_add, Nat.mod_mod,
    Nat.mod_eq_of_lt hd]

/-- An early object lies `non_mempool_obj_offset` into its page. -/
theorem offset_allocPage {page : ℕ} (hpage : pageSize ∣ page) :
    (page + nonMempoolObjOffset) &&& (pageSize - 1) = nonMempoolObjOffset :=
  offset_of_aligned hpage (by norm_num [nonMempoolObjOffset, pageSize])

/-- A pool object lies past the header of its page: its offset is at least
`sizeof(page_header)`, which is more than `non_mempool_obj_offset`. -/
theorem offset_poolAlloc {pool : Pool} {page x : ℕ} (hpage : pageSize ∣ page)
    (hx : x ∈ pool.addPage page) :
    x &&& (pageSize - 1) = x - page ∧ pageHeaderSize ≤ x - page := by
  obtain ⟨hlo, hhi⟩ := addPage_bounds hx
  have hd : x = page + (x - page) := by omega
  have hlt : x - page < pageSize := by
    have := pool.size_pos
    omega
  refine ⟨?_, by omega⟩
  rw [hd, offset_of_aligned hpage hlt, ← hd]

/-- A large object starts on a page boundary. -/
theorem offset_mallocLarge {b : PageRange} (hb : b.Valid) :
    (b.addr + pageSize) &&& (pageSize - 1) = 0 := by
  have := offset_of_aligned (Nat.dvd_add hb.1 (dvd_refl pageSize)) pageSize_pos
  rwa [add_zero] at this

/-! ## `std_free` -/

/-- **`std_free` gives every pointer back to the allocator it came from**: a null pointer to
nobody, an early object's page to `free_page`, a pool object to the pool in its page's header,
and a large object to `free_large`. -/
theorem stdFree_returns {c : MallocCall} {p : ℕ} (h : Returns c p) : stdFree p = c.release p := by
  cases h with
  | enomem => rfl
  | @allocPage page hpage =>
      have hne : page + nonMempoolObjOffset ≠ 0 := by norm_num [nonMempoolObjOffset]
      simp only [stdFree, hne, if_false, offset_allocPage hpage, if_true, MallocCall.release]
  | @poolAlloc n page _ hpage hx =>
      obtain ⟨hoff, hhdr⟩ := offset_poolAlloc hpage hx
      have hne : p ≠ 0 := by
        have := (addPage_bounds hx).1
        unfold pageHeaderSize at this
        omega
      have hearly : p - page ≠ nonMempoolObjOffset := by
        unfold pageHeaderSize at hhdr
        unfold nonMempoolObjOffset
        omega
      have hpos : p - page ≠ 0 := by
        unfold pageHeaderSize at hhdr
        omega
      simp only [stdFree, hne, if_false, hoff, hearly, ne_eq, hpos, not_false_eq_true, if_true,
        MallocCall.release]
  | @mallocLarge size b hb =>
      have hne : b.addr + pageSize ≠ 0 := Nat.pos_iff_ne_zero.mp (Nat.add_pos_right _ pageSize_pos)
      have hearly : (0 : ℕ) ≠ nonMempoolObjOffset := by norm_num [nonMempoolObjOffset]
      simp only [stdFree, hne, if_false, offset_mallocLarge hb, hearly, ne_eq, not_true_eq_false,
        MallocCall.release]

/-- **A pool object goes back to its own pool**: `pool::from_object` reads the pool that
`add_page` recorded in the header of the object's page. -/
theorem stdFree_poolAlloc {owner : ℕ → Pool} {n page x : ℕ} (hpage : pageSize ∣ page)
    (hx : x ∈ (mallocPool n).addPage page) (howner : owner page = mallocPool n) :
    stdFree x = .poolFree page ∧ fromObject owner x = mallocPool n := by
  refine ⟨?_, fromObject_addPage howner hpage hx⟩
  rw [stdFree_returns (.poolAlloc hpage hx), MallocCall.release, toHeader_addPage hpage hx]

/-! ## `object_size` -/

theorem objectSize_poolAlloc {pool : Pool} {page x : ℕ} (hpage : pageSize ∣ page)
    (hx : x ∈ pool.addPage page) : objectSize x = .poolSize page := by
  obtain ⟨hoff, hhdr⟩ := offset_poolAlloc hpage hx
  have hpos : x - page ≠ 0 := by
    unfold pageHeaderSize at hhdr
    omega
  simp only [objectSize, hoff, ne_eq, hpos, not_false_eq_true, if_true, toHeader_addPage hpage hx]

theorem objectSize_mallocLarge {b : PageRange} (hb : b.Valid) :
    objectSize (b.addr + pageSize) = .largeObjectSize (b.addr + pageSize) := by
  simp only [objectSize, offset_mallocLarge hb, ne_eq, not_true_eq_false, if_false]

/-- `object_size` takes an early object for a pool object: it reads the size from the pool
named at the start of the object's page, where no `page_header` was ever written. -/
theorem objectSize_allocPage {page : ℕ} (hpage : pageSize ∣ page) :
    objectSize (page + nonMempoolObjOffset) = .poolSize page := by
  have hne : nonMempoolObjOffset ≠ 0 := by norm_num [nonMempoolObjOffset]
  have hheader : toHeader (page + nonMempoolObjOffset) = page := by
    obtain ⟨q, rfl⟩ := hpage
    unfold toHeader alignDown
    rw [Nat.mul_add_div pageSize_pos, Nat.div_eq_of_lt (by norm_num [nonMempoolObjOffset, pageSize])]
    ring
  simp only [objectSize, offset_allocPage hpage, ne_eq, hne, not_false_eq_true, if_true, hheader]

/-! ## `std_malloc` -/

/-- **The pool `std_malloc` picks exists and is large enough**: once `smp_allocator` is set, a
request for a pool goes to one of the `malloc_pools`, whose objects are at least as large as
the request. -/
theorem stdMalloc_poolAlloc {size n : ℕ} (h : stdMalloc true size = .poolAlloc n) :
    n < mallocPoolCount ∧ size ≤ (mallocPool n).size := by
  unfold stdMalloc at h
  split_ifs at h with h63 hsmall
  cases h
  obtain ⟨hlt, -, hle⟩ := mallocPool_size_ilog2Roundup hsmall
  exact ⟨hlt, hle⟩

/-- Before `smp_allocator` is set, `std_malloc(16)` serves the request from a page of its own,
`std_free` returns that page, and `object_size` asks for the size of a pool that was never
recorded there. -/
theorem objectSize_early_reads_header :
    stdMalloc false 16 = .allocPage ∧
      stdFree (pageSize + nonMempoolObjOffset) = .freePage pageSize ∧
      objectSize (pageSize + nonMempoolObjOffset) = .poolSize pageSize := by
  refine ⟨by decide, ?_, objectSize_allocPage (dvd_refl pageSize)⟩
  have := stdFree_returns (.allocPage (dvd_refl pageSize))
  rw [this, MallocCall.release, Nat.add_sub_cancel]

/-! ## `std_realloc` -/

/-- What `object_size` reads: the pool that the header of a page names, and the `size` field of
the `page_range` header at an address. -/
structure SizeMemory where
  owner : ℕ → Pool
  rangeSize : ℕ → ℕ

/-- `large_object_size(obj)`: the `size` of the header one page below `obj`, returned as an
`unsigned`. -/
def largeObjectSize (mem : SizeMemory) (obj : ℕ) : ℕ := mem.rangeSize (obj - pageSize) % 2 ^ 32

/-- The size `object_size` returns, read from the memory where it looks. -/
def SizeCall.read (mem : SizeMemory) : SizeCall → ℕ
  | .poolSize header => (mem.owner header).size
  | .largeObjectSize object => Osv.Mempool.largeObjectSize mem object

/-- What `std_realloc(object, size)` does. -/
inductive ReallocCall where
  /-- `!object`: `malloc(size)` -/
  | malloc (size : ℕ)
  /-- `!size`: `free(object)`, and a null pointer -/
  | free (object : ℕ)
  /-- `malloc(size)`, then, when that succeeds, `memcpy(ptr, object, copy_size)` and
  `free(object)` -/
  | move (object size copySize : ℕ)
  deriving DecidableEq, Repr

/-- `std_realloc(object, size)`. -/
def stdRealloc (mem : SizeMemory) (object size : ℕ) : ReallocCall :=
  if object = 0 then .malloc size
  else if size = 0 then .free object
  else
    let oldSize := (objectSize object).read mem
    .move object size (if size > oldSize then oldSize else size)

/-- `std_realloc` of a live object copies `min(size, object_size(object))` bytes. -/
theorem stdRealloc_of_pos {mem : SizeMemory} {object size : ℕ} (hobj : object ≠ 0)
    (hsize : 0 < size) :
    stdRealloc mem object size = .move object size (min size ((objectSize object).read mem)) := by
  simp only [stdRealloc, hobj, Nat.pos_iff_ne_zero.mp hsize, if_false]
  congr 1
  split_ifs with h <;> omega

/-- **A pool object is copied within its extent.**  `std_realloc` of an object `add_page`
carved for a pool, the header of its page naming that pool, copies `min(size, pool size)`
bytes. -/
theorem stdRealloc_poolAlloc {mem : SizeMemory} {pool : Pool} {page x size : ℕ}
    (hpage : pageSize ∣ page) (hx : x ∈ pool.addPage page) (howner : mem.owner page = pool)
    (hsize : 0 < size) : stdRealloc mem x size = .move x size (min size pool.size) := by
  have hne : x ≠ 0 := by
    have := (addPage_bounds hx).1
    unfold pageHeaderSize at this
    omega
  rw [stdRealloc_of_pos hne hsize, objectSize_poolAlloc hpage hx, SizeCall.read, howner]

/-- The second object of a page of the pool of `1024`-byte objects, reallocated to `4000`
bytes: `1024` bytes are copied. -/
theorem stdRealloc_poolAlloc_grow :
    pageSize ∣ 0x1000 ∧ 0x1800 ∈ (mallocPool 10).addPage 0x1000 ∧
      stdRealloc ⟨fun _ => mallocPool 10, fun _ => 0⟩ 0x1800 4000 = .move 0x1800 4000 1024 :=
  have hx : 0x1800 ∈ (mallocPool 10).addPage 0x1000 :=
    (mem_addPage _ _ _).mpr ⟨by decide, by decide, by decide⟩
  ⟨by decide, hx, (stdRealloc_poolAlloc (by decide) hx rfl (by decide)).trans (by decide)⟩

/-- **A large object is copied with its header's size.**  For the block `malloc_large(n)`
carves, its header holding the size it wrote, `std_realloc` copies
`min(size, (align_up(n, page_size) + page_size) mod 2 ^ 32)` bytes from the object, while the
block holds `align_up(n, page_size)` bytes after its header. -/
theorem stdRealloc_mallocLarge {mem : SizeMemory} {free free' : List PageRange} {b : PageRange}
    {n size : ℕ} (hok : FreeListOk free) (h : mallocLarge n free = some (b, free'))
    (hheader : mem.rangeSize b.addr = b.size) (hsize : 0 < size) :
    stdRealloc mem (b.addr + pageSize) size =
        .move (b.addr + pageSize) size (min size ((alignUp n pageSize + pageSize) % 2 ^ 32)) ∧
      b.size - pageSize = alignUp n pageSize := by
  obtain ⟨-, hb, hbsize, -⟩ := mallocLargeFit_spec (mallocLarge_size_dvd n)
    (Nat.add_pos_right _ pageSize_pos) hok h
  have hne : b.addr + pageSize ≠ 0 := Nat.pos_iff_ne_zero.mp (Nat.add_pos_right _ pageSize_pos)
  refine ⟨?_, by omega⟩
  rw [stdRealloc_of_pos hne hsize, objectSize_mallocLarge hb, SizeCall.read,
    Osv.Mempool.largeObjectSize, Nat.add_sub_cancel, hheader, hbsize]

/-- **`realloc` reads past a large object, or copies too little of it.**  From one free range,
`malloc(5000)` gets a block of `12288` bytes whose object holds the `8192` after the header;
`realloc(p, 20000)` copies `12288` bytes from `p`, the last page past the block.  And
`malloc(2 ^ 32)`, whose header holds `2 ^ 32 + 4096`, reports `4096` bytes: `realloc(p, 2 ^ 33)`
copies `4096` bytes of `2 ^ 32`. -/
theorem realloc_copies_past_large_object :
    stdMalloc true 5000 = .mallocLarge 5000 ∧
      mallocLarge 5000 [⟨0x100000, 0x100000⟩] = some (⟨0x1FD000, 12288⟩, [⟨0x100000, 0xFD000⟩]) ∧
      stdRealloc ⟨fun _ => mallocPool 0, fun _ => 12288⟩ 0x1FE000 20000 = .move 0x1FE000 20000 12288 ∧
      0x1FD000 + 12288 < 0x1FE000 + 12288 ∧
      stdMalloc true (2 ^ 32) = .mallocLarge (2 ^ 32) ∧
      mallocLarge (2 ^ 32) [⟨0x100000, 2 ^ 33⟩] =
        some (⟨0x100000 + 2 ^ 32 - 4096, 2 ^ 32 + 4096⟩, [⟨0x100000, 2 ^ 32 - 4096⟩]) ∧
      stdRealloc ⟨fun _ => mallocPool 0, fun _ => 2 ^ 32 + 4096⟩ (0x100000 + 2 ^ 32) (2 ^ 33) =
        .move (0x100000 + 2 ^ 32) (2 ^ 33) 4096 := by
  have hsmall : mallocLarge 5000 [⟨0x100000, 0x100000⟩] =
      some (⟨0x1FD000, 12288⟩, [⟨0x100000, 0xFD000⟩]) := by decide
  have hlarge : mallocLarge (2 ^ 32) [⟨0x100000, 2 ^ 33⟩] =
      some (⟨0x100000 + 2 ^ 32 - 4096, 2 ^ 32 + 4096⟩, [⟨0x100000, 2 ^ 32 - 4096⟩]) := by decide
  refine ⟨by decide, hsmall, ?_, by decide, by decide, hlarge, ?_⟩
  -- each block's header holds the block's size, and `stdRealloc_mallocLarge` reads it back
  · obtain ⟨h, -⟩ := @stdRealloc_mallocLarge ⟨fun _ => mallocPool 0, fun _ => 12288⟩ _ _ _ 5000
      20000 (.singleton (by unfold PageRange.Valid; decide)) hsmall rfl (by decide)
    exact h.trans (by decide)
  · obtain ⟨h, -⟩ := @stdRealloc_mallocLarge ⟨fun _ => mallocPool 0, fun _ => 2 ^ 32 + 4096⟩ _ _ _
      (2 ^ 32) (2 ^ 33) (.singleton (by unfold PageRange.Valid; decide)) hlarge rfl (by decide)
    exact h.trans (by decide)

end Osv.Mempool
