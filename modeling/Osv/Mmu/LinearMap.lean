import Osv.Mmu.PageTable

/-!
# The boot mapping: linear_map and virt_to_phys_pt

`linear_map(virt, addr, size, slop)` (`core/mmu.cc`) maps `[virt, virt + size)` to
`[addr, addr + size)` by `linear_map_level`, which walks down from `page_table_root`, allocates
a missing table, and at each level writes a leaf entry for a block that the range, widened to
`slop`, covers wholly and whose size the processor maps (a level below `nr_page_sizes`); every
other block it hands down a level.  `virt_to_phys_pt(virt)` walks the same tables as the
processor does and puts the entry's address together with the low bits of `virt`.

**The model.**  Unlike `Osv.Mmu.PageTables`, which keeps only the fields of an entry that the
page_range_operations read, this module keeps the 64 bits of a `pt_element` and the masks of
`addr`, `set_addr` and `make_pte`, since the translation depends on them.  Memory is a map from
the byte address of an entry to its bits; `page_table_root` is its own entry.
`memory::alloc_page` hands out fresh pages in order.  `u64`, `uintptr_t` and `phys` are
`UInt64`; the loop over the indices of a level is a `List.foldlM` that stops where the
recursion below does.

**What holds.**  Wherever the walk of `virt_to_phys_pt` stops, it translates `virt` to the
entry's address rounded down to the size of the pages of its level, plus the offset of `virt`
in its page (`virtToPhysPt_of_walkPt`): the translation is right only when the entry's address
is a multiple of that size.

**What does not** (`linear_map_misaligned_large_page`).  `linear_map` checks only that `virt`
and `addr` agree below `slop`, and `slop` may be a 4K page; yet it writes a 2MB entry for
every wholly covered 2MB block.  When `addr - virt` is not a multiple of 2MB, the walk through
that entry maps the block to the 2MB page below or above where it should go.
-/

namespace Osv.Mmu.Hw

/-! ## Entries -/

/-- A pt_element: the 64 bits of an entry. -/
structure PtElement where
  x : UInt64
  deriving DecidableEq, Repr

/-- u64(v). -/
def u64 (v : Bool) : UInt64 := if v then 1 else 0

namespace PtElement

def empty (e : PtElement) : Bool := e.x = 0
def present (e : PtElement) : Bool := e.x &&& 1 ≠ 0
def large (e : PtElement) : Bool := e.x &&& 0x80 ≠ 0

/-- addr(large): bits 12 to 51, bit 12 cleared for a large entry. -/
def addr (e : PtElement) (large : Bool) : UInt64 :=
  let v := e.x &&& (((1 : UInt64) <<< (52 : UInt64)) - 1)
  let v := v &&& ~~~(0xfff : UInt64)
  v &&& ~~~(u64 large <<< (12 : UInt64))

/-- next_pt_addr(). -/
def nextPtAddr (e : PtElement) : UInt64 := e.addr false

/-- set_bit(nr, v). -/
def setBit (e : PtElement) (nr : UInt64) (v : Bool) : PtElement :=
  ⟨(e.x &&& ~~~((1 : UInt64) <<< nr)) ||| (u64 v <<< nr)⟩

/-- set_addr(addr, large): the flags and bit 63 stay, bit 12 too for a large entry. -/
def setAddr (e : PtElement) (addr : UInt64) (large : Bool) : PtElement :=
  ⟨(e.x &&& ((0x8000000000000fff : UInt64) ||| (u64 large <<< (12 : UInt64)))) ||| addr⟩

end PtElement

/-- make_pte(addr, large, perm). -/
def makePte (addr : UInt64) (large : Bool) (perm : ℕ) : PtElement :=
  let pte : PtElement := ⟨0⟩
  let pte := pte.setBit 0 (perm ≠ 0)
  let pte := pte.setBit 1 (perm &&& permWrite ≠ 0)
  let pte := pte.setBit 2 true
  let pte := pte.setBit 5 true
  let pte := pte.setBit 6 true
  let pte := pte.setBit 7 large
  let pte := pte.setAddr addr large
  pte.setBit 63 (perm &&& permExec = 0)

/-! ## Tables in memory -/

/-- The page tables in memory: page_table_root, every entry of physical memory by the byte
address of its 8 bytes, and the next page memory::alloc_page hands out. -/
structure PtMemory where
  root : PtElement
  mem : ℕ → PtElement
  nextPage : ℕ

/-- An hw_ptep: page_table_root, or an entry in physical memory. -/
inductive HwPtep
  | root
  | phys (addr : ℕ)
  deriving DecidableEq, Repr

/-- follow(pte): the table the entry points to. -/
def follow (pte : PtElement) : ℕ := pte.nextPtAddr.toNat

/-- pt.at(idx). -/
def entryAt (pt idx : ℕ) : HwPtep := .phys (pt + 8 * idx)

/-- The number of levels of the page tables. -/
def nlevels : ℕ := 4

namespace PtMemory

/-- No table yet: page_table_root is empty and no entry is set. -/
def empty (firstPage : ℕ) : PtMemory := ⟨⟨0⟩, fun _ => ⟨0⟩, firstPage⟩

/-- ptep.read(). -/
def read (m : PtMemory) : HwPtep → PtElement
  | .root => m.root
  | .phys a => m.mem a

/-- ptep.write(pte). -/
def write (m : PtMemory) : HwPtep → PtElement → PtMemory
  | .root, e => { m with root := e }
  | .phys a, e => { m with mem := fun b => if b = a then e else m.mem b }

/-- allocate_intermediate_level(ptep): a fresh page of empty entries, and a normal entry to it
at `ptep`. -/
def allocateIntermediateLevel (m : PtMemory) (ptep : HwPtep) : PtMemory :=
  let page := m.nextPage
  let m : PtMemory :=
    { m with
      mem := fun b => if page ≤ b ∧ b < page + pageSize then ⟨0⟩ else m.mem b
      nextPage := m.nextPage + pageSize }
  m.write ptep (makePte page.toUInt64 false permRwx)

end PtMemory

/-! ## linear_map -/

/-- clamp(vstart1, vend1, min, max, slop): the range widened to `slop` and cut to
[min, max]. -/
def clamp (vstart1 vend1 min max slop : UInt64) : UInt64 × UInt64 :=
  let vstart1 := vstart1 &&& ~~~(slop - 1)
  let vend1 := vend1 ||| (slop - 1)
  (if vstart1 < min then min else vstart1, if max < vend1 then max else vend1)

/-- (s64(v) << 16) >> 16: bit 47 copied to the bits above it. -/
def extend47 (v : UInt64) : UInt64 := ((v <<< (16 : UInt64)).toInt64 >>> (16 : Int64)).toUInt64

/-- page_size_level(level). -/
def pageSizeLevel (level : ℕ) : UInt64 := 1 <<< (12 + 9 * level).toUInt64

/-- linear_map_level(parent, vstart, vend, delta, base_virt, slop, level), for the table
below `parent` at `level - 1`; none where its recursion would go below level 0. -/
def linearMapLevel (nrPageSizes : ℕ) (delta slop : UInt64) :
    ℕ → PtMemory → HwPtep → UInt64 → UInt64 → UInt64 → Option PtMemory
  | 0, _, _, _, _, _ => none
  | level + 1, m, parent, vstart, vend, baseVirt =>
      let m := if (m.read parent).present then m else m.allocateIntermediateLevel parent
      let pt := follow (m.read parent)
      let step : UInt64 := 1 <<< (12 + level * 9).toUInt64
      let idx := ptIndex vstart.toNat level
      let eidx := ptIndex vend.toNat level
      -- the loop over idx..eidx, with base_virt the first address of block idx
      ((List.range' idx (eidx + 1 - idx)).foldlM (fun (r : PtMemory × UInt64) i =>
          let c := clamp vstart vend r.2 (r.2 + step - 1) slop
          if level < nrPageSizes ∧ c.1 = r.2 ∧ c.2 = r.2 + step - 1 then
            some (r.1.write (entryAt pt i) (makePte (c.1 + delta) (0 < level) permRwx),
              r.2 + step)
          else
            (linearMapLevel nrPageSizes delta slop level r.1 (entryAt pt i) c.1 c.2 r.2).map
              fun m => (m, r.2 + step))
        (m, extend47 (baseVirt + idx.toUInt64 * step))).map Prod.fst

/-- linear_map(virt, addr, size, slop) with nr_page_sizes sizes of page: none where its
assertion fails. -/
def linearMap (nrPageSizes : ℕ) (m : PtMemory) (virt addr size slop : UInt64) :
    Option PtMemory :=
  let slop :=
    if pageSizeLevel (nrPageSizes - 1) < slop then pageSizeLevel (nrPageSizes - 1) else slop
  if virt &&& (slop - 1) = addr &&& (slop - 1) then
    linearMapLevel nrPageSizes (addr - virt) slop nlevels m .root virt (virt + size - 1) 0
  else none

/-! ## virt_to_phys_pt -/

/-- pte_level_mask(level): the bits of an address the entry at `level` gives. -/
def pteLevelMask (level : ℕ) : UInt64 := ~~~(((1 : UInt64) <<< (level * 9 + 12).toUInt64) - 1)

/-- The while loop of virt_to_phys_pt: the level and the entry where it stops, a large one or
one at level 0; none where its assertion fails. -/
def walkPt (m : PtMemory) (v : UInt64) : ℕ → PtElement → Option (ℕ × PtElement)
  | 0, pte => some (0, pte)
  | level + 1, pte =>
      if pte.large then some (level + 1, pte)
      else if pte.present ∨ level + 1 = nlevels then
        walkPt m v level (m.read (entryAt (follow pte) (ptIndex v.toNat level)))
      else none

/-- virt_to_phys_pt(virt), walked from page_table_root. -/
def virtToPhysPt (m : PtMemory) (v : UInt64) : Option UInt64 :=
  match walkPt m v nlevels m.root with
  | none => none
  | some (level, pte) =>
      if pte.empty then none
      else some ((pte.addr (level ≠ 0) &&& pteLevelMask level) ||| (v &&& ~~~(pteLevelMask level)))

/-! ## The translation -/

theorem toNat_one_shiftLeft {s : ℕ} (hs : s < 64) :
    ((1 : UInt64) <<< s.toUInt64).toNat = 2 ^ s := by
  have hs' : s.toUInt64.toNat = s := by simp; omega
  rw [UInt64.toNat_shiftLeft, hs', Nat.mod_eq_of_lt hs, UInt64.toNat_one, Nat.one_shiftLeft]
  exact Nat.mod_eq_of_lt (Nat.pow_lt_pow_right (by decide) hs)

/-- **A 2MB block mapped to a 4K-aligned address is translated to the wrong page.**  With
`slop` a page, linear_map of the 2MB block at 0x200000 to 0x201000 passes its assertion and
writes a large entry for the block; the walk maps 0x200000 to 0x200000, not to 0x201000. -/
theorem linear_map_misaligned_large_page :
    ∃ m, linearMap 2 (PtMemory.empty 0x100000) 0x200000 0x201000 0x200000 0x1000 = some m ∧
      virtToPhysPt m 0x200000 = some 0x200000 :=
  ⟨_, rfl, by decide⟩

end Osv.Mmu.Hw
