import Osv.Mempool.PageRange

/-!
# The per-cpu page buffers

Once the SMP allocator is running, single pages come from a per-cpu `page_buffer`, an array
`free[max]` of page addresses filled up to `nr`.  A buffer is modelled by the list of its pages
from the top down: `free[nr - 1]` is the head, so `free[--nr]` is the head and `free[nr++] = v`
puts `v` in front.

* `refillPageBuffer` — `refill_page_buffer`: take pages from the front of the free list until
  the buffer holds `(max + 1) / 2` of them.  Each pass of its loop takes the last
  `min(p->size, (limit - nr) * page_size)` bytes of the first range (`refillLoop`) and pushes
  them page by page in increasing address order (`fillPages`).
* `unfillPageBuffer` — `unfill_page_buffer`: give pages back with `free_page_range_locked`
  while more than `max / 2` are buffered (`unfillLoop`).
* `allocPageLocal`, `freePageLocal` — `alloc_page_local`, `free_page_local`: pop and push, the
  latter failing on a full buffer.

The loops of the source terminate because each pass either erases a range or fills the
buffer; `refillLoop` is defined by well-founded recursion on exactly that measure.  `fillPages`
subtracts `page_size` from a size that, in every state the allocator reaches, is a multiple of
it, so the natural-number subtraction here agrees with the `size_t` one there.
-/

namespace Osv.Mempool

/-- `page_buffer::max`. -/
def pageBufferMax : ℕ := 512

/-- The bytes of a list of pages. -/
def pagesCells (pages : List ℕ) : List ℕ :=
  pages.flatMap fun v => (⟨v, pageSize⟩ : PageRange).cells

@[simp] theorem pagesCells_nil : pagesCells [] = [] := rfl

@[simp] theorem pagesCells_cons (v : ℕ) (pages : List ℕ) :
    pagesCells (v :: pages) = (⟨v, pageSize⟩ : PageRange).cells ++ pagesCells pages := rfl

/-- The inner loop of `refill_page_buffer`: `pbuf.free[pbuf.nr++] = pages` for each page of
`[pages, pages + size)`, lowest address first. -/
def fillPages (pages size : ℕ) (buf : List ℕ) : List ℕ :=
  if size = 0 then buf else fillPages (pages + pageSize) (size - pageSize) (pages :: buf)
termination_by size
decreasing_by unfold pageSize; omega

/-- The loop pushes one page per started page of `size`. -/
theorem fillPages_length (pages size : ℕ) (buf : List ℕ) :
    (fillPages pages size buf).length = buf.length + (size + pageSize - 1) / pageSize := by
  fun_induction fillPages pages size buf with
  | case1 pages buf => simp [pageSize]
  | case2 pages size buf h ih =>
      rw [ih]
      simp only [List.length_cons, pageSize] at *
      omega

/-- The pages pushed are aligned when the first one is. -/
theorem fillPages_aligned {pages size : ℕ} {buf : List ℕ} (hp : pageSize ∣ pages)
    (hbuf : ∀ v ∈ buf, pageSize ∣ v) : ∀ v ∈ fillPages pages size buf, pageSize ∣ v := by
  fun_induction fillPages pages size buf with
  | case1 pages buf => simpa using hbuf
  | case2 pages size buf h ih =>
      refine ih (Nat.dvd_add hp (dvd_refl _)) fun v hv => ?_
      rcases List.mem_cons.mp hv with rfl | hv
      · exact hp
      · exact hbuf v hv

/-- Pushing the pages of `[pages, pages + size)`, a whole number of pages, adds exactly those
bytes to the buffer. -/
theorem fillPages_cells {pages size : ℕ} {buf : List ℕ} (hsize : pageSize ∣ size) :
    (pagesCells (fillPages pages size buf)).Perm (List.range' pages size ++ pagesCells buf) := by
  fun_induction fillPages pages size buf with
  | case1 pages buf => simp
  | case2 pages size buf h ih =>
      have hle : pageSize ≤ size := Nat.le_of_dvd (Nat.pos_of_ne_zero h) hsize
      refine (ih (Nat.dvd_sub hsize (dvd_refl _))).trans ?_
      -- the first page pushed is the first page of the run
      have hsplit : List.range' pages size =
          List.range' pages pageSize ++ List.range' (pages + pageSize) (size - pageSize) := by
        rw [List.range'_append_1, Nat.add_sub_cancel' hle]
      rw [hsplit, pagesCells_cons]
      simp only [PageRange.cells, Runs.cells, ← List.append_assoc]
      exact List.perm_append_comm.append_right _

/-- The outer loop of `refill_page_buffer`, filling the buffer up to `limit` pages from the
front of the free list. -/
def refillLoop (limit : ℕ) (buf : List ℕ) (free : List PageRange) : List ℕ × List PageRange :=
  if buf.length < limit then
    match free with
    | [] => (buf, [])
    | p :: rest =>
        let size := min p.size ((limit - buf.length) * pageSize)
        let p' : PageRange := ⟨p.addr, p.size - size⟩
        if p'.size = 0 then refillLoop limit (fillPages (p.addr + p'.size) size buf) rest
        else refillLoop limit (fillPages (p.addr + p'.size) size buf) (p' :: rest)
  else (buf, free)
termination_by free.length * (limit + 1) + (limit - buf.length)
decreasing_by
  · simp only [List.length_cons]
    rw [Nat.add_mul, Nat.one_mul]
    omega
  · -- the range was not used up, so the buffer was filled by a positive number of pages
    rename_i hlen hne
    have hne' : p.size - min p.size ((limit - buf.length) * pageSize) ≠ 0 := hne
    simp only [List.length_cons, fillPages_length]
    unfold pageSize at *
    omega

/-- What a page-buffer loop guarantees from `(buf, free)` to its result: the free list stays
good, the buffered pages aligned, and buffer and free list together hold the same bytes. -/
structure MovesPages (buf : List ℕ) (free : List PageRange) (r : List ℕ × List PageRange) :
    Prop where
  ok : FreeListOk r.2
  aligned : ∀ v ∈ r.1, pageSize ∣ v
  cells : (pagesCells r.1 ++ rangeCells r.2).Perm (pagesCells buf ++ rangeCells free)

theorem MovesPages.refl {buf : List ℕ} {free : List PageRange} (hok : FreeListOk free)
    (hbuf : ∀ v ∈ buf, pageSize ∣ v) : MovesPages buf free (buf, free) :=
  ⟨hok, hbuf, List.Perm.refl _⟩

theorem dvd_min {d a b : ℕ} (ha : d ∣ a) (hb : d ∣ b) : d ∣ min a b := by
  rcases min_choice a b with h | h <;> rw [h] <;> assumption

/-- **`refill_page_buffer`'s loop moves pages and creates or loses none.**  It also never fills
the buffer past `limit` pages. -/
theorem refillLoop_spec {limit : ℕ} {buf : List ℕ} {free : List PageRange}
    (hok : FreeListOk free) (hbuf : ∀ v ∈ buf, pageSize ∣ v) :
    MovesPages buf free (refillLoop limit buf free) ∧
      (refillLoop limit buf free).1.length ≤ max buf.length limit := by
  fun_induction refillLoop limit buf free with
  | case1 buf hlen => exact ⟨MovesPages.refl hok hbuf, le_max_left _ _⟩
  | case2 buf hlen p rest size p' h0 ih =>
      -- the whole first range goes into the buffer
      have hp := hok.valid p (by simp)
      have hsz : pageSize ∣ size := dvd_min hp.2.1 (Nat.dvd_mul_left _ _)
      have hsize : size = p.size := by simp only [p'] at h0; omega
      have hstart : pageSize ∣ p.addr + p'.size := by rw [h0, Nat.add_zero]; exact hp.1
      obtain ⟨hmv, hlen'⟩ := ih (hok.sublist (List.sublist_cons_self _ _))
        (fillPages_aligned hstart hbuf)
      refine ⟨⟨hmv.ok, hmv.aligned, hmv.cells.trans ?_⟩, hlen'.trans ?_⟩
      · refine ((fillPages_cells hsz).append_right _).trans ?_
        have hrun : List.range' (p.addr + p'.size) size = p.cells := by
          simp [p', hsize, PageRange.cells, Runs.cells]
        rw [hrun]
        simp only [rangeCells, Runs.footprint_cons, PageRange.cells, List.append_assoc]
        exact List.perm_append_comm_assoc _ _ _
      · rw [fillPages_length]
        simp only [size, pageSize] at *
        omega
  | case3 buf hlen p rest size p' h0 ih =>
      -- the buffer fills up from the end of the first range, which shrinks
      have hp := hok.valid p (by simp)
      have hsz : pageSize ∣ size := dvd_min hp.2.1 (Nat.dvd_mul_left _ _)
      have hle : size ≤ p.size := min_le_left _ _
      have hp' : p'.Valid := ⟨hp.1, Nat.dvd_sub hp.2.1 hsz, Nat.pos_of_ne_zero h0⟩
      have hstart : pageSize ∣ p.addr + p'.size := Nat.dvd_add hp.1 hp'.2.1
      obtain ⟨hmv, hlen'⟩ := ih (hok.shrink_head hp' rfl (Nat.sub_le _ _))
        (fillPages_aligned hstart hbuf)
      refine ⟨⟨hmv.ok, hmv.aligned, hmv.cells.trans ?_⟩, hlen'.trans ?_⟩
      · refine ((fillPages_cells hsz).append_right _).trans ?_
        have hcut : List.range' p.addr p.size = List.range' p.addr (p.size - size) ++
            List.range' (p.addr + (p.size - size)) size := cells_cut_end p hle
        simp only [rangeCells, Runs.footprint_cons, p', Runs.cells, hcut]
        rw [← Multiset.coe_eq_coe]
        simp only [← Multiset.coe_add]
        ac_rfl
      · rw [fillPages_length]
        simp only [size, pageSize] at *
        omega
  | case4 buf free hlen => exact ⟨MovesPages.refl hok hbuf, le_max_left _ _⟩

/-- `refill_page_buffer`: abort on an empty free list, else fill to `(max + 1) / 2` pages. -/
def refillPageBuffer (buf : List ℕ) (free : List PageRange) : Option (List ℕ × List PageRange) :=
  if free = [] then none else some (refillLoop ((pageBufferMax + 1) / 2) buf free)

/-- The loop of `unfill_page_buffer`: while more than `max / 2` pages are buffered, return the
top one to the free list. -/
def unfillLoop : List ℕ → List PageRange → List ℕ × List PageRange
  | buf, free =>
      if pageBufferMax / 2 < buf.length then
        match buf with
        | v :: buf => unfillLoop buf (freePageRangeLocked ⟨v, pageSize⟩ free)
        | [] => ([], free)
      else (buf, free)

/-- **`unfill_page_buffer`'s loop moves pages and creates or loses none**, provided the
buffered pages are not free already; it never grows the buffer. -/
theorem unfillLoop_spec {buf : List ℕ} {free : List PageRange} (hok : FreeListOk free)
    (hbuf : ∀ v ∈ buf, pageSize ∣ v) (hnd : (pagesCells buf ++ rangeCells free).Nodup) :
    MovesPages buf free (unfillLoop buf free) ∧ (unfillLoop buf free).1.length ≤ buf.length := by
  fun_induction unfillLoop buf free with
  | case1 free v buf hlen ih =>
      -- the top page is free of the free list, so `free_page_range_locked` may take it
      have hv : (⟨v, pageSize⟩ : PageRange).Valid :=
        ⟨hbuf v (by simp), dvd_refl _, pageSize_pos⟩
      have hdisj : List.Disjoint (⟨v, pageSize⟩ : PageRange).cells (rangeCells free) := by
        rw [pagesCells_cons, List.append_assoc] at hnd
        exact List.disjoint_of_nodup_append
          (hnd.sublist ((List.sublist_append_right _ _).append_left _))
      obtain ⟨hok1, hperm1⟩ := freePageRangeLocked_spec hok hv hdisj
      have hperm : (pagesCells buf ++ rangeCells (freePageRangeLocked ⟨v, pageSize⟩ free)).Perm
          (pagesCells (v :: buf) ++ rangeCells free) := by
        refine (hperm1.append_left _).trans ?_
        rw [pagesCells_cons]
        exact (List.perm_append_comm_assoc _ _ _).trans (by simp)
      obtain ⟨hmv, hlen'⟩ := ih hok1 (fun w hw => hbuf w (by simp [hw]))
        ((List.Perm.nodup_iff hperm).mpr hnd)
      exact ⟨⟨hmv.ok, hmv.aligned, hmv.cells.trans hperm⟩, by simp only [List.length_cons]; omega⟩
  | case2 free hlen => exact ⟨MovesPages.refl hok hbuf, le_rfl⟩
  | case3 buf free hlen => exact ⟨MovesPages.refl hok hbuf, le_rfl⟩

/-- `unfill_page_buffer`. -/
def unfillPageBuffer (buf : List ℕ) (free : List PageRange) : List ℕ × List PageRange :=
  unfillLoop buf free

/-- `alloc_page_local`: the top page, or `nullptr` (`none`) on an empty buffer. -/
def allocPageLocal : List ℕ → Option (ℕ × List ℕ)
  | [] => none
  | v :: buf => some (v, buf)

theorem allocPageLocal_eq_some {buf buf' : List ℕ} {v : ℕ} :
    allocPageLocal buf = some (v, buf') ↔ buf = v :: buf' := by
  cases buf with
  | nil => simp [allocPageLocal]
  | cons w buf => simp [allocPageLocal]

/-- `free_page_local(v)`: push `v`, or return `false` (`none`) on a full buffer. -/
def freePageLocal (v : ℕ) (buf : List ℕ) : Option (List ℕ) :=
  if buf.length = pageBufferMax then none else some (v :: buf)

theorem freePageLocal_eq_some {buf buf' : List ℕ} {v : ℕ} :
    freePageLocal v buf = some buf' ↔ buf.length ≠ pageBufferMax ∧ buf' = v :: buf := by
  unfold freePageLocal
  split_ifs with h
  · simp [h]
  · simp [h, eq_comm]

end Osv.Mempool
