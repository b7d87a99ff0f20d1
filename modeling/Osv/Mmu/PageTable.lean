import Osv.Mmu.VmaList

/-!
# The page tables

**The model.**  The hardware page tables of core/mmu.cc are a four-level tree of tables of
512 entries each, found from page_table_root.  A `PageTables` is the content of every
table, as a function from the physical page of a table and an index to the entry there
(`none` is the empty pte: make_pte always sets the user bit, so an entry written by it is
never empty), with the supply of fresh physical pages that memory::alloc_page and
memory::alloc_huge_page hand out and the pages given back to them.  An entry keeps the bits
the operations read or write: present, writable, large, nx and the address.  The loops of
allocate_intermediate_level and split_large_page over the 512 entries of a new table, and
those of protection and unpopulate over a small-page table, are single writes of the whole
table here: no other code runs between their iterations.

A page_range_operation is a `PageRangeOperation` with its own state (the success flag of
protection): `walk` is the while loop of operate_page, which allocates an empty
intermediate level or returns, and splits a large page it passes through; `operate` cuts a
range into the small pages before the first 2MB boundary, the huge pages up to the last and
the small pages after it.  `populate`, `unpopulate` and `protection` are the three
operations of mmu.cc; the contents that fill_page writes are not modelled.

**What holds.**  Units walked as small pages never make protection fail
(`protection_operatePages_small`): only its huge_page, at a 2MB entry that points to a
table, reports an empty slot as a failure.  operate tiles its range (`operate_tiles_range`):
its units cover each 4K page of the page-aligned range once, in order, its huge units are
2MB-aligned huge pages inside the range, and each unit's offset is its distance from the
aligned start, as long as the aligned end and the first 2MB boundary above the start stay
below `2 ^ 64`.  When the aligned end is `2 ^ 64` itself, it wraps to `0` and no page is
visited; when the first 2MB boundary above the start wraps to `0`, the huge pages start at `0`,
below the range (`operate_wraps_at_top`).
-/

namespace Osv.Mmu

/-! ## Entries and tables -/

/-- mmu::huge_page_size. -/
def hugePageSize : ℕ := 0x200000

/-- mmu::perm_exec. -/
def permExec : ℕ := 4

/-- align_down(n, alignment) of align.hh. -/
def alignDownTo (n alignment : ℕ) : ℕ := n / alignment * alignment

/-- align_up(n, alignment) of align.hh, in uintptr_t. -/
def alignUpTo (n alignment : ℕ) : ℕ := alignDownTo (uadd n (alignment - 1)) alignment

/-- pt_index(virt, level). -/
def ptIndex (virt level : ℕ) : ℕ := virt / 2 ^ (12 + level * 9) % 512

/-- A pt_element that is not empty. -/
structure Pte where
  present : Bool
  writable : Bool
  large : Bool
  nx : Bool
  addr : ℕ
  deriving DecidableEq, Repr

/-- make_pte(addr, large, perm); make_normal_pte is the small one, make_large_pte the
large one, both with perm_rwx unless given. -/
def makePte (addr : ℕ) (large : Bool) (perm : ℕ) : Pte :=
  ⟨perm ≠ 0, perm &&& permWrite ≠ 0, large, perm &&& permExec = 0, addr⟩

/-- The permission mmu.cc gives an entry it does not give one. -/
def permRwx : ℕ := 7

/-- change_perm(ptep, perm). -/
def changePerm (pte : Pte) (perm : ℕ) : Pte :=
  { pte with present := perm ≠ 0, writable := perm &&& permWrite ≠ 0, nx := perm &&& permExec = 0 }

/-- An hw_ptep: the physical page of a table and an index in it. -/
abbrev Ptep := ℕ × ℕ

/-- The page tables: the entries of every table, the next physical page the page allocator
hands out, and the pages given back to it, latest first. -/
structure PageTables where
  entry : ℕ → ℕ → Option Pte
  nextFree : ℕ
  freed : List ℕ

/-- The physical page of page_table_root. -/
def rootTable : ℕ := 0x1000

namespace PageTables

/-- No user mapping: the root table's entries are all empty. -/
def init : PageTables := ⟨fun _ _ => none, 0x2000, []⟩

/-- ptep.read(). -/
def read (pt : PageTables) (ptep : Ptep) : Option Pte := pt.entry ptep.1 ptep.2

/-- ptep.write(pte). -/
def write (pt : PageTables) (ptep : Ptep) (e : Option Pte) : PageTables :=
  { pt with entry := fun t i => if t = ptep.1 ∧ i = ptep.2 then e else pt.entry t i }

/-- Every entry of the table at `page` at once. -/
def writeTable (pt : PageTables) (page : ℕ) (f : ℕ → Option Pte) : PageTables :=
  { pt with entry := fun t i => if t = page then f i else pt.entry t i }

/-- ptep.compare_exchange(make_empty_pte(), e): the entry is written only if still empty;
otherwise the page that `e` would have mapped goes back to the allocator. -/
def compareExchange (pt : PageTables) (ptep : Ptep) (e : Pte) : PageTables :=
  if pt.read ptep = none then pt.write ptep (some e) else { pt with freed := e.addr :: pt.freed }

/-- memory::alloc_page(): a fresh physical page. -/
def allocPage (pt : PageTables) : ℕ × PageTables :=
  (pt.nextFree, { pt with nextFree := pt.nextFree + pageSize })

/-- memory::alloc_huge_page(huge_page_size): a fresh 2MB-aligned physical range. -/
def allocHugePage (pt : PageTables) : ℕ × PageTables :=
  (alignUpTo pt.nextFree hugePageSize,
    { pt with nextFree := alignUpTo pt.nextFree hugePageSize + hugePageSize })

/-- memory::free_page and memory::free_huge_page. -/
def freePage (pt : PageTables) (page : ℕ) : PageTables := { pt with freed := page :: pt.freed }

/-- allocate_intermediate_level(ptep): a fresh table of empty entries, and a normal pte to
it; the new table's page is returned as well. -/
def allocateIntermediateLevel (pt : PageTables) (ptep : Ptep) : PageTables × ℕ :=
  ((pt.allocPage.2.writeTable pt.allocPage.1 fun _ => none).write ptep
      (some (makePte pt.allocPage.1 false permRwx)),
    pt.allocPage.1)

/-- free_intermediate_level(ptep): none where the assertion that every entry of the table
is empty fails. -/
def freeIntermediateLevel (pt : PageTables) (ptep : Ptep) (table : ℕ) : Option PageTables :=
  if (List.range 512).all fun i => pt.entry table i = none then
    some ((pt.write ptep none).freePage table)
  else none

/-- split_large_page(ptep, level): a table of 512 entries that map the pieces of the large
page, large themselves above level 1; the new table's page is returned as well. -/
def splitLargePage (pt : PageTables) (ptep : Ptep) (orig : Pte) (level : ℕ) :
    PageTables × ℕ :=
  let orig := if level = 1 then { orig with large := false } else orig
  let (pt, table) := pt.allocateIntermediateLevel ptep
  (pt.writeTable table fun i =>
      if i < 512 then
        some { orig with addr := orig.addr ||| i * 2 ^ (12 + 9 * (level - 1)), large := decide (1 < level) && orig.large }
      else pt.entry table i,
    table)

/-- The entry the processor's walk from the table at `level` ends at for `virt`: a large
entry above level 0, the entry at level 0; none where an entry on the way is empty. -/
def lookupFrom (pt : PageTables) (virt : ℕ) : ℕ → ℕ → Option Pte
  | 0, table => pt.entry table (ptIndex virt 0)
  | level + 1, table =>
      match pt.entry table (ptIndex virt (level + 1)) with
      | none => none
      | some pte => if pte.large then some pte else lookupFrom pt virt level pte.addr

/-- The entry that maps `virt`, walked from page_table_root. -/
def lookup (pt : PageTables) (virt : ℕ) : Option Pte := pt.lookupFrom virt 3 rootTable

end PageTables

/-! ## page_range_operation -/

/-- A page_range_operation: its small_page and huge_page, which may abort, over a state of
its own, and should_allocate_intermediate. -/
structure PageRangeOperation (σ : Type) where
  smallPage : σ → PageTables → Ptep → ℕ → Option (σ × PageTables)
  hugePage : σ → PageTables → Ptep → ℕ → Option (σ × PageTables)
  shouldAllocateIntermediate : Bool

namespace PageRangeOperation

variable {σ : Type}

/-- The operation at the entry operate_page stops at. -/
def leaf (op : PageRangeOperation σ) (huge : Bool) : σ → PageTables → Ptep → ℕ →
    Option (σ × PageTables) :=
  if huge then op.hugePage else op.smallPage

/-- The while loop of operate_page at the entry `ptep` of a table of `level`: it stops at
level 1 for a huge page and at level 0 for a small one. -/
def walk (op : PageRangeOperation σ) (huge : Bool) (addr offset : ℕ) :
    ℕ → Ptep → σ → PageTables → Option (σ × PageTables)
  | 0, ptep, s, pt => op.leaf huge s pt ptep offset
  | level + 1, ptep, s, pt =>
      if huge ∧ level = 0 then op.leaf huge s pt ptep offset
      else
        match pt.read ptep with
        | none =>
            if op.shouldAllocateIntermediate then
              walk op huge addr offset level
                ((pt.allocateIntermediateLevel ptep).2, ptIndex addr level) s
                (pt.allocateIntermediateLevel ptep).1
            else some (s, pt)
        | some pte =>
            if pte.large then
              walk op huge addr offset level
                ((pt.splitLargePage ptep pte (level + 1)).2, ptIndex addr level) s
                (pt.splitLargePage ptep pte (level + 1)).1
            else walk op huge addr offset level (pte.addr, ptIndex addr level) s pt

/-- operate_page(huge, addr, offset): the walk from page_table_root, at level 3. -/
def operatePage (op : PageRangeOperation σ) (huge : Bool) (addr offset : ℕ) (s : σ)
    (pt : PageTables) : Option (σ × PageTables) :=
  op.walk huge addr offset 3 (rootTable, ptIndex addr 3) s pt

/-- operate_page on each unit of a range, huge or not, with its offset from `start`. -/
def operatePages (op : PageRangeOperation σ) (start : ℕ) :
    List (Bool × ℕ) → σ → PageTables → Option (σ × PageTables)
  | [], s, pt => some (s, pt)
  | (huge, a) :: us, s, pt =>
      (op.operatePage huge a (a - start) s pt).bind fun r => operatePages op start us r.1 r.2

end PageRangeOperation

/-- The addresses of for (addr = lo; addr < hi; addr += step), whose `addr` does not wrap
past `2 ^ 64` before it reaches `hi`. -/
def stepsFrom (lo hi step : ℕ) : List ℕ :=
  (List.range ((hi - lo + step - 1) / step)).map fun k => lo + k * step

/-- The units page_range_operation::operate(start, size) visits, in order: the small pages
up to the first 2MB boundary, the huge pages between the first and the last, the small
pages after. -/
def operateUnits (start size : ℕ) : List (Bool × ℕ) :=
  let start := alignDownTo start pageSize
  let stop := uadd start (alignUpTo size pageSize)
  let hpStart := min (alignUpTo start hugePageSize) stop
  let hpEnd := if alignDownTo stop hugePageSize < start then stop else alignDownTo stop hugePageSize
  (stepsFrom start hpStart pageSize).map (false, ·) ++
    (stepsFrom hpStart hpEnd hugePageSize).map (true, ·) ++
    (stepsFrom hpEnd stop pageSize).map (false, ·)

namespace PageRangeOperation

variable {σ : Type}

/-- page_range_operation::operate(start, size); tlb_flush changes no table. -/
def operate (op : PageRangeOperation σ) (start size : ℕ) (s : σ) (pt : PageTables) :
    Option (σ × PageTables) :=
  op.operatePages (alignDownTo start pageSize) (operateUnits start size) s pt

end PageRangeOperation

/-! ## The three operations -/

/-- populate(fill, perm): a missing small page is allocated and mapped; a huge page takes
the place of a table of small pages, which free_intermediate_level asserts is empty. -/
def populate (perm : ℕ) : PageRangeOperation Unit where
  smallPage _ pt ptep _ :=
    if (pt.read ptep).isSome then some ((), pt)
    else some ((), pt.allocPage.2.compareExchange ptep (makePte pt.allocPage.1 false perm))
  hugePage _ pt ptep _ :=
    match pt.read ptep with
    | some pte =>
        if pte.large then some ((), pt)
        else
          (pt.freeIntermediateLevel ptep pte.addr).map fun pt =>
            ((), pt.allocHugePage.2.compareExchange ptep (makePte pt.allocHugePage.1 true perm))
    | none => some ((), pt.allocHugePage.2.compareExchange ptep (makePte pt.allocHugePage.1 true perm))
  shouldAllocateIntermediate := true

/-- unpopulate: every page is unmapped and freed, a table of small pages with it. -/
def unpopulate : PageRangeOperation Unit where
  smallPage _ pt ptep _ :=
    match pt.read ptep with
    | none => some ((), pt)
    | some pte => some ((), (pt.write ptep none).freePage pte.addr)
  hugePage _ pt ptep _ :=
    match pt.read ptep with
    | none => some ((), pt.write ptep none)
    | some pte =>
        if pte.large then some ((), (pt.write ptep none).freePage pte.addr)
        else
          some ((), (((pt.write ptep none).writeTable pte.addr fun i =>
              if i < 512 then none else pt.entry pte.addr i)
            |> fun pt' => { pt' with freed := pte.addr ::
              ((List.range 512).filterMap fun i => (pt.entry pte.addr i).map Pte.addr).reverse ++
                pt.freed }))
  shouldAllocateIntermediate := false

/-- protection(perm), whose state is its success flag: an empty small page is passed over,
an empty slot of a table under a 2MB entry is a failure. -/
def protection (perm : ℕ) : PageRangeOperation Bool where
  smallPage success pt ptep _ :=
    match pt.read ptep with
    | none => some (success, pt)
    | some pte => some (success, pt.write ptep (some (changePerm pte perm)))
  hugePage success pt ptep _ :=
    match pt.read ptep with
    | none => some (success, pt)
    | some pte =>
        if pte.large then some (success, pt.write ptep (some (changePerm pte perm)))
        else
          some (success && (List.range 512).all (fun i => (pt.entry pte.addr i).isSome),
            pt.writeTable pte.addr fun i =>
              if i < 512 then (pt.entry pte.addr i).map (changePerm · perm) else pt.entry pte.addr i)
  shouldAllocateIntermediate := false

/-! ## Small pages never fail -/

namespace PageRangeOperation

variable {σ : Type}

/-- The walk changes the operation's state only at the entry it stops at.  The induction
is on the level, one table a step. -/
theorem walk_state (op : PageRangeOperation σ) (P : σ → Prop) (huge : Bool)
    (hleaf : ∀ s pt ptep offset s' pt', P s → op.leaf huge s pt ptep offset = some (s', pt') → P s')
    (addr offset : ℕ) :
    ∀ level ptep s pt s' pt', P s → op.walk huge addr offset level ptep s pt = some (s', pt') →
      P s' := by
  intro level
  induction level with
  | zero => intro ptep s pt s' pt' hs h; exact hleaf _ _ _ _ _ _ hs h
  | succ level ih =>
      intro ptep s pt s' pt' hs h
      simp only [walk] at h
      by_cases hstop : huge = true ∧ level = 0
      · rw [if_pos hstop] at h
        exact hleaf _ _ _ _ _ _ hs h
      rw [if_neg hstop] at h
      -- an empty entry is allocated or ends the walk, a large one is split
      cases hr : pt.read ptep with
      | none =>
          rw [hr] at h
          dsimp only at h
          split_ifs at h
          · exact ih _ _ _ _ _ hs h
          · cases h
            exact hs
      | some pte =>
          rw [hr] at h
          dsimp only at h
          split_ifs at h
          · exact ih _ _ _ _ _ hs h
          · exact ih _ _ _ _ _ hs h

/-- The units of a range keep a property of the operation's state that the leaf of each
unit keeps. -/
theorem operatePages_state (op : PageRangeOperation σ) (P : σ → Prop) (start : ℕ) :
    ∀ units : List (Bool × ℕ),
      (∀ u ∈ units, ∀ s pt ptep offset s' pt', P s →
        op.leaf u.1 s pt ptep offset = some (s', pt') → P s') →
      ∀ s pt s' pt', P s → op.operatePages start units s pt = some (s', pt') → P s' := by
  intro units
  induction units with
  | nil => intro _ s pt s' pt' hs h; cases h; exact hs
  | cons u us ih =>
      intro hleaf s pt s' pt' hs h
      simp only [operatePages, Option.bind_eq_some_iff] at h
      obtain ⟨⟨s₁, pt₁⟩, hpage, h⟩ := h
      have h₁ := walk_state op P u.1 (hleaf u (List.mem_cons_self ..)) u.2 _ 3 _ _ _ _ _ hs hpage
      exact ih (fun v hv => hleaf v (List.mem_cons_of_mem _ hv)) _ _ _ _ h₁ h

end PageRangeOperation

/-- **protection fails only in huge pages.**  Units that operate walks as small pages leave
protection's success flag as it was, populated or not. -/
theorem protection_operatePages_small (perm start : ℕ) (units : List (Bool × ℕ))
    (hsmall : ∀ u ∈ units, u.1 = false) (success : Bool) (pt pt' : PageTables) (success' : Bool)
    (h : (protection perm).operatePages start units success pt = some (success', pt')) :
    success' = success := by
  refine (protection perm).operatePages_state (· = success) start units ?_ success pt success'
    pt' rfl h
  -- small_page changes a populated entry's permission and passes over an empty one
  intro u hu s pt ptep offset s' pt' hs hleaf
  rw [hsmall u hu] at hleaf
  simp only [PageRangeOperation.leaf, protection, Bool.false_eq_true, ↓reduceIte] at hleaf
  split at hleaf <;> (cases hleaf; exact hs)


/-! ## operate tiles its range

`for (addr = lo; addr < hi; addr += step)` is `List.range'` once `hi` is `lo` plus a multiple of
the step; the three loops of operate are then three pieces of one progression of pages. -/

/-- The 4K pages a unit of operate covers: its page, or the 512 pages of its huge page. -/
def unitPages (u : Bool × ℕ) : List ℕ :=
  if u.1 then stepsFrom u.2 (u.2 + hugePageSize) pageSize else [u.2]

theorem map_range_eq_range' (step : ℕ) :
    ∀ n lo : ℕ, (List.range n).map (fun k => lo + k * step) = List.range' lo n step
  | 0, _ => rfl
  | n + 1, lo => by
      rw [List.range_succ_eq_map, List.map_cons, List.map_map, List.range'_succ,
        ← map_range_eq_range' step n (lo + step)]
      congr 1
      · simp
      · refine List.map_congr_left fun k _ => ?_
        simp only [Function.comp, Nat.succ_mul]
        omega

/-- A loop that ends at a multiple of its step from its start visits `List.range'`. -/
theorem stepsFrom_eq_range' {lo hi step n : ℕ} (hstep : 0 < step) (h : lo + n * step = hi) :
    stepsFrom lo hi step = List.range' lo n step := by
  have hcount : (hi - lo + step - 1) / step = n := by
    rw [show hi - lo + step - 1 = step - 1 + n * step by omega, Nat.add_mul_div_right _ _ hstep,
      Nat.div_eq_of_lt (by omega), Nat.zero_add]
  rw [stepsFrom, hcount, map_range_eq_range']

/-- An aligned difference is a whole number of steps. -/
theorem add_div_mul_of_mod {lo hi step : ℕ} (hle : lo ≤ hi) (h : (hi - lo) % step = 0) :
    lo + (hi - lo) / step * step = hi := by
  rw [Nat.div_mul_cancel (Nat.dvd_of_mod_eq_zero h)]
  omega

/-- Two loops, the first ending where the second starts, visit what one loop visits. -/
theorem stepsFrom_append {lo mid hi step m n : ℕ} (hstep : 0 < step) (h₁ : lo + m * step = mid)
    (h₂ : mid + n * step = hi) :
    stepsFrom lo mid step ++ stepsFrom mid hi step = stepsFrom lo hi step := by
  rw [stepsFrom_eq_range' hstep h₁, stepsFrom_eq_range' hstep h₂,
    stepsFrom_eq_range' hstep (show lo + (m + n) * step = hi by rw [← h₂, ← h₁, Nat.add_mul]; omega),
    ← List.range'_append, show lo + step * m = mid by rw [← h₁, Nat.mul_comm]]

/-- The pages of `n` huge pages from `lo` are the `512 * n` pages from `lo`. -/
theorem flatMap_huge_pages :
    ∀ (n lo : ℕ), (List.range' lo n hugePageSize).flatMap (fun a => stepsFrom a (a + hugePageSize) pageSize) =
      List.range' lo (n * 512) pageSize
  | 0, _ => rfl
  | n + 1, lo => by
      have hpage : stepsFrom lo (lo + hugePageSize) pageSize = List.range' lo 512 pageSize :=
        stepsFrom_eq_range' (by decide) rfl
      rw [List.range'_succ, List.flatMap_cons, flatMap_huge_pages n, hpage,
        show lo + hugePageSize = lo + pageSize * 512 from rfl, List.range'_append]
      congr 1
      omega

/-- With no 2MB boundary in `[s, e]`, the first one above `s` lies past `e`. -/
theorem hugeBoundary_past {s e : ℕ} (hnone : e / hugePageSize * hugePageSize < s) :
    e < (s + (hugePageSize - 1)) / hugePageSize * hugePageSize := by
  unfold hugePageSize at *
  omega

/-- The first 2MB boundary at or above `s` is at most any boundary at or above `s`. -/
theorem hugeBoundary_le {s e : ℕ} (hsome : s ≤ e / hugePageSize * hugePageSize) :
    (s + (hugePageSize - 1)) / hugePageSize * hugePageSize ≤ e / hugePageSize * hugePageSize := by
  unfold hugePageSize at *
  omega

theorem le_alignUp_huge (s : ℕ) : s ≤ (s + (hugePageSize - 1)) / hugePageSize * hugePageSize := by
  unfold hugePageSize
  omega

/-- **The three loops of operate.**  Within a range whose end and whose first 2MB boundary do
not wrap, the small pages run from the range's start to `hpStart`, the huge pages from
`hpStart` to `hpEnd`, the small pages from `hpEnd` to the end, each piece a whole number of
its steps, and `hpStart` 2MB-aligned when there is a huge page. -/
theorem operateUnits_shape {start size : ℕ}
    (hend : alignDownTo start pageSize + alignUpTo size pageSize < wordSize)
    (htop : alignDownTo start pageSize + hugePageSize ≤ wordSize) :
    ∃ a b m n k, operateUnits start size =
        (stepsFrom (alignDownTo start pageSize) a pageSize).map (false, ·) ++
          (stepsFrom a b hugePageSize).map (true, ·) ++
          (stepsFrom b (alignDownTo start pageSize + alignUpTo size pageSize) pageSize).map
            (false, ·) ∧
      alignDownTo start pageSize + m * pageSize = a ∧ a + n * hugePageSize = b ∧
      b + k * pageSize = alignDownTo start pageSize + alignUpTo size pageSize ∧
      (n = 0 ∨ a % hugePageSize = 0) := by
  set s := alignDownTo start pageSize with hs
  set z := alignUpTo size pageSize with hz
  have hsal : s % pageSize = 0 := Nat.mul_mod_left _ _
  have hzal : z % pageSize = 0 := Nat.mul_mod_left _ _
  have hstop : uadd s z = s + z := uadd_of_lt hend
  have hA : alignUpTo s hugePageSize = (s + (hugePageSize - 1)) / hugePageSize * hugePageSize := by
    rw [alignUpTo, alignDownTo, uadd_of_lt (by unfold hugePageSize wordSize at *; omega)]
  have hunits : operateUnits start size =
      (stepsFrom s (min (alignUpTo s hugePageSize) (s + z)) pageSize).map (false, ·) ++
        (stepsFrom (min (alignUpTo s hugePageSize) (s + z))
          (if alignDownTo (s + z) hugePageSize < s then s + z
            else alignDownTo (s + z) hugePageSize) hugePageSize).map (true, ·) ++
        (stepsFrom (if alignDownTo (s + z) hugePageSize < s then s + z
            else alignDownTo (s + z) hugePageSize) (s + z) pageSize).map (false, ·) := by
    rw [operateUnits, ← hs, ← hz, hstop]
  rw [hunits, hA]
  unfold alignDownTo
  have he : (s + z) % pageSize = 0 := by rw [Nat.add_mod, hsal, hzal, Nat.add_zero, Nat.zero_mod]
  clear_value s z
  clear hunits hA hstop hs hz hend htop
  by_cases hnone : (s + z) / hugePageSize * hugePageSize < s
  · -- no 2MB boundary inside the range: only small pages, up to the end
    rw [if_pos hnone, Nat.min_eq_right (hugeBoundary_past hnone).le]
    exact ⟨s + z, s + z, z / pageSize, 0, 0, rfl,
      by rw [Nat.div_mul_cancel (Nat.dvd_of_mod_eq_zero hzal)], by simp, by simp, Or.inl rfl⟩
  · -- the huge pages run between the first and the last 2MB boundary of the range
    have hsD := Nat.le_of_not_lt hnone
    have hAD := hugeBoundary_le hsD
    have hDe : (s + z) / hugePageSize * hugePageSize ≤ s + z := Nat.div_mul_le_self _ _
    rw [if_neg hnone, Nat.min_eq_left (Nat.le_trans hAD hDe)]
    generalize hA : (s + (hugePageSize - 1)) / hugePageSize * hugePageSize = A at hAD
    generalize hD : (s + z) / hugePageSize * hugePageSize = D at hAD hDe hsD
    have hAal : A % hugePageSize = 0 := hA ▸ Nat.mul_mod_left _ _
    have hDal : D % hugePageSize = 0 := hD ▸ Nat.mul_mod_left _ _
    have hsA : s ≤ A := hA ▸ le_alignUp_huge s
    refine ⟨A, D, (A - s) / pageSize, (D - A) / hugePageSize, (s + z - D) / pageSize,
      rfl, add_div_mul_of_mod hsA ?_, add_div_mul_of_mod hAD ?_, add_div_mul_of_mod hDe ?_,
      Or.inr hAal⟩
    all_goals
      unfold hugePageSize pageSize at *
      omega

/-- **operate tiles its range.**  When neither the page-aligned end of the range nor the first
2MB boundary at or above its start wraps past `2 ^ 64`, the units operate visits cover the 4K
pages of `[align_down(start), align_down(start) + align_up(size))` in increasing order, each
once; every huge unit is a 2MB-aligned huge page inside the range; and every unit lies at or
above the aligned start, so the offset `addr - start` it is given is its distance from it. -/
theorem operate_tiles_range {start size : ℕ}
    (hend : alignDownTo start pageSize + alignUpTo size pageSize < wordSize)
    (htop : alignDownTo start pageSize + hugePageSize ≤ wordSize) :
    (operateUnits start size).flatMap unitPages =
        stepsFrom (alignDownTo start pageSize)
          (alignDownTo start pageSize + alignUpTo size pageSize) pageSize ∧
      (∀ a, (true, a) ∈ operateUnits start size → a % hugePageSize = 0 ∧
        alignDownTo start pageSize ≤ a ∧
        a + hugePageSize ≤ alignDownTo start pageSize + alignUpTo size pageSize) ∧
      ∀ u ∈ operateUnits start size, alignDownTo start pageSize ≤ u.2 := by
  obtain ⟨a, b, m, n, k, hunits, hm, hn, hk, hal⟩ := operateUnits_shape hend htop
  have hsmall : ∀ lo hi, ((stepsFrom lo hi pageSize).map (false, ·)).flatMap unitPages =
      stepsFrom lo hi pageSize := fun lo hi => by
    rw [List.flatMap_map]
    exact List.flatMap_singleton' _
  have hhuge : ((stepsFrom a b hugePageSize).map (true, ·)).flatMap unitPages =
      stepsFrom a b pageSize := by
    rw [List.flatMap_map, stepsFrom_eq_range' (by decide) hn,
      stepsFrom_eq_range' (n := n * 512) (by decide) (by rw [← hn]; unfold hugePageSize pageSize; omega)]
    exact flatMap_huge_pages n a
  -- a unit is in one of the three loops, each starting at or above the range's start
  have hmem : ∀ u ∈ operateUnits start size,
      (u.1 = false ∧ u.2 ∈ stepsFrom (alignDownTo start pageSize) a pageSize) ∨
        (u.1 = true ∧ u.2 ∈ List.range' a n hugePageSize) ∨
        (u.1 = false ∧ u.2 ∈ stepsFrom b (alignDownTo start pageSize + alignUpTo size pageSize)
          pageSize) := by
    intro u hu
    rw [hunits, List.mem_append, List.mem_append, stepsFrom_eq_range' (by decide) hn] at hu
    rcases hu with (hu | hu) | hu <;> obtain ⟨x, hx, rfl⟩ := List.mem_map.1 hu
    · exact Or.inl ⟨rfl, hx⟩
    · exact Or.inr (Or.inl ⟨rfl, hx⟩)
    · exact Or.inr (Or.inr ⟨rfl, hx⟩)
  refine ⟨?_, fun x hx => ?_, fun u hu => ?_⟩
  · rw [hunits, List.flatMap_append, List.flatMap_append, hsmall, hhuge, hsmall,
      stepsFrom_append (by decide) hm (show a + (n * 512) * pageSize = b by
        rw [← hn]; unfold hugePageSize pageSize; omega),
      stepsFrom_append (by decide) (show alignDownTo start pageSize + (m + n * 512) * pageSize = b by
        rw [← hn, ← hm]; unfold hugePageSize pageSize; rw [Nat.add_mul]; omega) hk]
  · rcases hmem _ hx with ⟨h, -⟩ | ⟨-, h⟩ | ⟨h, -⟩
    · cases h
    · obtain ⟨i, hi, rfl⟩ := List.mem_range'.1 h
      have hn0 : n ≠ 0 := by omega
      have ha := hal.resolve_left hn0
      refine ⟨?_, by omega, ?_⟩
      · rw [Nat.add_mul_mod_self_left, ha]
      · -- the unit ends at or before `hpEnd`, a whole number of huge pages from `hpStart`
        have hlast : hugePageSize * (i + 1) ≤ hugePageSize * n := Nat.mul_le_mul_left _ hi
        unfold hugePageSize pageSize at *
        omega
    · cases h
  · rcases hmem u hu with ⟨-, h⟩ | ⟨-, h⟩ | ⟨-, h⟩
    · rw [stepsFrom_eq_range' (by decide) hm] at h
      obtain ⟨i, -, hi⟩ := List.mem_range'.1 h
      omega
    · obtain ⟨i, -, hi⟩ := List.mem_range'.1 h
      omega
    · rw [stepsFrom_eq_range' (by decide) hk] at h
      obtain ⟨i, -, hi⟩ := List.mem_range'.1 h
      omega

/-- The range `[0x1ff000, 0x401000)`: a small page, the huge page at `0x200000`, a small page. -/
theorem operate_tiles_range_three_units :
    alignDownTo 0x1ff000 pageSize + alignUpTo 0x202000 pageSize < wordSize ∧
      alignDownTo 0x1ff000 pageSize + hugePageSize ≤ wordSize ∧
      ((operateUnits 0x1ff000 0x202000).flatMap unitPages =
          stepsFrom (alignDownTo 0x1ff000 pageSize)
            (alignDownTo 0x1ff000 pageSize + alignUpTo 0x202000 pageSize) pageSize ∧
        (∀ a, (true, a) ∈ operateUnits 0x1ff000 0x202000 → a % hugePageSize = 0 ∧
          alignDownTo 0x1ff000 pageSize ≤ a ∧
          a + hugePageSize ≤ alignDownTo 0x1ff000 pageSize + alignUpTo 0x202000 pageSize) ∧
        ∀ u ∈ operateUnits 0x1ff000 0x202000, alignDownTo 0x1ff000 pageSize ≤ u.2) :=
  ⟨by decide, by decide, operate_tiles_range (by decide) (by decide)⟩

/-- **At the top of the address space operate does not tile its range.**  In both ranges
`start + size` stays below `2 ^ 64`.  For `[0x1000, 0x1000 + align_up(size))` the page-aligned
end is `2 ^ 64`, which wraps to `0`, and operate visits no page.  For the page at
`2 ^ 64 - 0x2000` the first 2MB boundary above the start wraps to `0`, and operate starts its
huge pages there, below the range. -/
theorem operate_wraps_at_top :
    (0x1000 + (2 ^ 64 - 0x1001) < wordSize ∧
      alignDownTo 0x1000 pageSize + alignUpTo (2 ^ 64 - 0x1001) pageSize = wordSize ∧
      operateUnits 0x1000 (2 ^ 64 - 0x1001) = []) ∧
    ((2 ^ 64 - 0x2000) + 0x1000 < wordSize ∧ (true, 0) ∈ operateUnits (2 ^ 64 - 0x2000) 0x1000) := by
  refine ⟨⟨by decide, by decide, by decide⟩, by decide, ?_⟩
  have hs : alignDownTo (2 ^ 64 - 0x2000) pageSize = 2 ^ 64 - 0x2000 := by decide
  have hstop : uadd (2 ^ 64 - 0x2000) (alignUpTo 0x1000 pageSize) = 2 ^ 64 - 0x1000 := by decide
  have hhp : alignUpTo (2 ^ 64 - 0x2000) hugePageSize = 0 := by decide
  have hend : alignDownTo (2 ^ 64 - 0x1000) hugePageSize < 2 ^ 64 - 0x2000 := by decide
  dsimp only [operateUnits]
  rw [hs, hstop, hhp, Nat.zero_min, if_pos hend]
  -- the huge-page loop runs from `0` to the end of the range
  refine List.mem_append_left _ (List.mem_append_right _ (List.mem_map.mpr ⟨0, ?_, rfl⟩))
  rw [stepsFrom, List.mem_map]
  exact ⟨0, List.mem_range.mpr (by decide), rfl⟩

end Osv.Mmu
