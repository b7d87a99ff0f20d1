import Osv.Lib.Word
import Osv.Mmu.LinearMap

/-!
# split_large_page, bit by bit

`split_large_page(ptep, level)` (`core/mmu.cc`) replaces the large entry at `ptep`, which maps
a page of `level`, by a table of 512 entries that map its pieces: it copies the entry, clears
its large bit when `level` is `1`, calls `allocate_intermediate_level(ptep)`, and writes at
index `i` of the new table the copy with the address `tmp.addr(level > 1) | i << (12 + 9 *
(level - 1))`, set by `set_addr(.., level > 1)`.  For a large entry bit `12` is the PAT bit, not
an address bit: `addr(true)` clears it and `set_addr(.., true)` keeps it.

**The model.**  The entries are the 64 bits of `Osv.Mmu.Hw.PtElement`, in the memory of
`Osv.Mmu.Hw.PtMemory`, as `linear_map` writes them; the translation of `v` through a leaf at
`level` is `leafPhys`, what `virt_to_phys_pt` puts together.  The new table is the page
`memory::alloc_page` hands out next.

**What holds** (`splitLargePage_walk`).  At level `2` the split keeps the translation of every
address and the present, writable and nx bits, and the new entries are large; so it does at
level `1` for an entry whose PAT bit is clear, with small new entries.  `make_pte` does not
clear it: a large entry made for an address that is not 2MB aligned, such as
`make_pte(0x201000, true)` (`linear_map_misaligned_large_page`), has it set.  The address bits
below the page size of `level`, reserved by the processor, are taken to be clear.

**What does not** (`split_large_page_pat_bit_moves_pages`).  At level `1` the copy is read with
`addr(false)` once its large bit is cleared, so a set PAT bit becomes bit `12` of every new
entry's address: each even-numbered 4K piece is mapped one page too high.
-/

namespace Osv.Mmu.Hw

namespace PtElement

/-- writable() -/
def writable (e : PtElement) : Bool := e.x &&& 2 ≠ 0

/-- nx() -/
def nx (e : PtElement) : Bool := e.x >>> 63 ≠ 0

/-- set_large(v) -/
def setLarge (e : PtElement) (v : Bool) : PtElement := e.setBit 7 v

/-- Bit `j` of the entry. -/
def bit (e : PtElement) (j : ℕ) : Bool := e.x.toNat.testBit j

end PtElement

/-- The body of split_large_page's loop: the entry at index `i` of the new table, made from the
copy `pte_orig`. -/
def splitChild (pteOrig : PtElement) (level i : ℕ) : PtElement :=
  pteOrig.setAddr (pteOrig.addr (decide (1 < level)) |||
    (i.toUInt64 <<< (12 + 9 * (level - 1)).toUInt64)) (decide (1 < level))

/-- split_large_page(ptep, level). -/
def splitLargePage (m : PtMemory) (ptep : HwPtep) (level : ℕ) : PtMemory :=
  let pteOrig := m.read ptep
  let pteOrig := if level = 1 then pteOrig.setLarge false else pteOrig
  let m := m.allocateIntermediateLevel ptep
  let pt := follow (m.read ptep)
  (List.range 512).foldl (fun m i => m.write (entryAt pt i) (splitChild pteOrig level i)) m

/-- The address `virt_to_phys_pt` makes of `v` through the leaf `pte` at `level`. -/
def leafPhys (level : ℕ) (pte : PtElement) (v : UInt64) : UInt64 :=
  (pte.addr (level ≠ 0) &&& pteLevelMask level) ||| (v &&& ~~~(pteLevelMask level))

/-! ## The bits of an entry -/

namespace PtElement

variable (e : PtElement)

theorem bit_of_le {j : ℕ} (hj : 64 ≤ j) : e.bit j = false := Word.testBit_of_le e.x hj

theorem present_eq : e.present = e.bit 0 := Word.and_ne_zero_of_two_pow e.x 1 rfl

theorem writable_eq : e.writable = e.bit 1 := Word.and_ne_zero_of_two_pow e.x 2 rfl

theorem large_eq : e.large = e.bit 7 := Word.and_ne_zero_of_two_pow e.x 0x80 rfl

theorem nx_eq : e.nx = e.bit 63 := by
  have hdiv : (e.x >>> (63 : UInt64)).toNat = e.x.toNat / 2 ^ 63 := by
    rw [UInt64.toNat_shiftRight, Nat.shiftRight_eq_div_pow]
    rfl
  have hlt : e.x.toNat / 2 ^ 63 < 2 := by
    have := UInt64.toNat_lt e.x
    omega
  have hbit : e.bit 63 = decide (e.x.toNat / 2 ^ 63 % 2 = 1) := by
    rw [bit, ← Nat.zero_add 63, ← Nat.testBit_div_two_pow, Nat.testBit_zero]
  rw [nx, hbit]
  -- both sides are read off the top bit, `e.x.toNat / 2 ^ 63`
  rcases (show e.x.toNat / 2 ^ 63 = 0 ∨ e.x.toNat / 2 ^ 63 = 1 by omega) with h0 | h1
  · have hx : e.x >>> (63 : UInt64) = 0 := by rw [← UInt64.toNat_inj, hdiv, h0, UInt64.toNat_zero]
    rw [hx, h0]
    rfl
  · have hx : e.x >>> (63 : UInt64) ≠ 0 := fun h => by
      rw [← UInt64.toNat_inj, hdiv, h1, UInt64.toNat_zero] at h
      cases h
    rw [h1]
    simp [hx]

/-- `u64(v) << nr` for a bit number `nr` below `64`: bit `nr` when `v`. -/
theorem testBit_u64_shiftLeft (v : Bool) {nr : ℕ} (hnr : nr < 64) (j : ℕ) :
    (u64 v <<< nr.toUInt64).toNat.testBit j = (v && decide (j = nr)) := by
  cases v with
  | false => simp [u64]
  | true =>
      rw [show u64 true = 1 from rfl, Word.toNat_one_shiftLeft hnr, Nat.testBit_two_pow]
      simp [eq_comm]

theorem bit_setBit {nr : ℕ} (hnr : nr < 64) (v : Bool) (j : ℕ) :
    (e.setBit nr.toUInt64 v).bit j = if j = nr then v else e.bit j := by
  simp only [bit]
  rw [setBit, Word.testBit_or, Word.testBit_and, Word.testBit_not, Word.toNat_one_shiftLeft hnr,
    Nat.testBit_two_pow, testBit_u64_shiftLeft v hnr]
  by_cases hj : j = nr
  · subst hj
    simp [hnr]
  · by_cases h64 : j < 64
    · simp [hj, h64, Ne.symm hj]
    · have hout : e.x.toNat.testBit j = false := e.bit_of_le (Nat.le_of_not_lt h64)
      simp [hj, h64, hout]

/-- addr(large): bits `12` to `51`, without bit `12` for a large entry. -/
theorem testBit_addr (large : Bool) (j : ℕ) :
    (e.addr large).toNat.testBit j =
      (e.bit j && decide (12 ≤ j) && decide (j < 52) && !(large && decide (j = 12))) := by
  have h12 : (u64 large <<< (12 : UInt64)) = u64 large <<< (12 : ℕ).toUInt64 := rfl
  rw [addr, Word.testBit_and, Word.testBit_and, Word.testBit_and, Word.testBit_not,
    Word.testBit_not, h12, testBit_u64_shiftLeft large (by decide),
    show (52 : UInt64) = (52 : ℕ).toUInt64 from rfl, Word.toNat_one_shiftLeft_sub_one (by decide),
    Nat.testBit_two_pow_sub_one, show (0xfff : UInt64).toNat = 2 ^ 12 - 1 from rfl,
    Nat.testBit_two_pow_sub_one]
  by_cases h52 : j < 52
  · have h64 : j < 64 := by omega
    by_cases h12' : 12 ≤ j
    · simp [h52, h64, h12', Nat.not_lt.mpr h12', bit]
    · simp [h52, h64, h12', Nat.lt_of_not_le h12', bit]
  · simp [h52]

/-- set_addr(addr, large): the flags, bit `63` and for a large entry bit `12` stay, and the bits
of `addr` are added. -/
theorem bit_setAddr (a : UInt64) (large : Bool) (j : ℕ) :
    (e.setAddr a large).bit j =
      ((e.bit j && (decide (j < 12) || decide (j = 63) || (large && decide (j = 12)))) ||
        a.toNat.testBit j) := by
  have h12 : (u64 large <<< (12 : UInt64)) = u64 large <<< (12 : ℕ).toUInt64 := rfl
  simp only [bit]
  rw [setAddr, Word.testBit_or, Word.testBit_and, Word.testBit_or, h12,
    testBit_u64_shiftLeft large (by decide),
    show (0x8000000000000fff : UInt64).toNat = 2 ^ 63 + (2 ^ 12 - 1) from rfl,
    Word.testBit_two_pow_add_low (by decide)]

end PtElement

/-! ## The entries of the new table -/

section Child

variable (tmp : PtElement) (i : ℕ)

/-- The piece index shifted into place: its bits from `k` on. -/
theorem testBit_index_shiftLeft (hi : i < 512) {k : ℕ} (hk : k ≤ 21) (j : ℕ) :
    (i.toUInt64 <<< k.toUInt64).toNat.testBit j = (decide (k ≤ j) && i.testBit (j - k)) :=
  Word.testBit_shiftLeft (by omega)
    (Nat.lt_of_lt_of_le (Nat.mul_lt_mul_of_pos_right hi (Nat.two_pow_pos k))
      (by
        calc 512 * 2 ^ k ≤ 2 ^ 9 * 2 ^ 21 := Nat.mul_le_mul (by decide) (Nat.pow_le_pow_right (by decide) hk)
          _ ≤ 2 ^ 64 := by decide)) j

/-- The bits of the entry at index `i`: the copy's flags, the copy's address, the index. -/
theorem bit_splitChild (level : ℕ) (hlevel : level ≤ 2) (hi : i < 512) (j : ℕ) :
    (splitChild tmp level i).bit j =
      ((tmp.bit j && (decide (j < 12) || decide (j = 63) || (decide (1 < level) && decide (j = 12)))) ||
        (tmp.bit j && decide (12 ≤ j) && decide (j < 52) && !(decide (1 < level) && decide (j = 12))) ||
          (decide (12 + 9 * (level - 1) ≤ j) && i.testBit (j - (12 + 9 * (level - 1))))) := by
  rw [splitChild, PtElement.bit_setAddr, Word.testBit_or, PtElement.testBit_addr,
    testBit_index_shiftLeft i hi (by omega)]
  simp only [Bool.or_assoc]

/-- The flags of the entry at index `i` are the copy's. -/
theorem splitChild_flag (level : ℕ) (hlevel : level ≤ 2) (hi : i < 512) {j : ℕ} (hj : j < 12 ∨ j = 63) :
    (splitChild tmp level i).bit j = tmp.bit j := by
  rw [bit_splitChild tmp i level hlevel hi]
  rcases hj with hj | rfl
  · have : ¬ 12 + 9 * (level - 1) ≤ j := by omega
    simp [hj, this]
  · -- the index has no bit as high as `63`
    have hlow : i.testBit (63 - (12 + 9 * (level - 1))) = false :=
      Nat.testBit_lt_two_pow (Nat.lt_of_lt_of_le hi (by
        calc 512 = 2 ^ 9 := rfl
          _ ≤ 2 ^ (63 - (12 + 9 * (level - 1))) := Nat.pow_le_pow_right (by decide) (by omega)))
    simp [hlow]

end Child

/-! ## Translation -/

theorem testBit_pteLevelMask {level : ℕ} (hs : level * 9 + 12 < 64) (j : ℕ) :
    (pteLevelMask level).toNat.testBit j = (decide (j < 64) && decide (level * 9 + 12 ≤ j)) := by
  rw [pteLevelMask, Word.testBit_not, Word.toNat_one_shiftLeft_sub_one hs,
    Nat.testBit_two_pow_sub_one]
  by_cases hj : j < level * 9 + 12
  · simp [hj, Nat.not_le.mpr hj]
  · simp [hj, Nat.le_of_not_lt hj]

/-- The translation takes the bits of `v` below the page size of `level` and the entry's address
above. -/
theorem testBit_leafPhys {level : ℕ} (hs : level * 9 + 12 < 64) (pte : PtElement) (v : UInt64)
    (j : ℕ) :
    (leafPhys level pte v).toNat.testBit j =
      if j < level * 9 + 12 then v.toNat.testBit j else (pte.addr (level ≠ 0)).toNat.testBit j := by
  rw [leafPhys, Word.testBit_or, Word.testBit_and, Word.testBit_and, Word.testBit_not,
    testBit_pteLevelMask hs]
  by_cases h64 : j < 64
  · by_cases hj : j < level * 9 + 12
    · simp [h64, hj, Nat.not_le.mpr hj]
    · simp [h64, hj, Nat.le_of_not_lt hj]
  · have hj : ¬ j < level * 9 + 12 := by omega
    simp [h64, hj, Word.testBit_of_le _ (Nat.le_of_not_lt h64)]

/-- Bit `j` of `v` in the piece field of `level`: a bit of `v`'s index there. -/
theorem testBit_ptIndex (v : UInt64) (level j : ℕ) :
    (ptIndex v.toNat level).testBit j = (decide (j < 9) && v.toNat.testBit (j + (12 + level * 9))) := by
  rw [ptIndex, show (512 : ℕ) = 2 ^ 9 from rfl, Nat.testBit_mod_two_pow, Nat.testBit_div_two_pow]

/-- The word `0x1000` read at bit `j` when `b`: bit `12`. -/
theorem testBit_pat (b : Bool) (j : ℕ) :
    (if b then (0x1000 : UInt64) else 0).toNat.testBit j = (b && decide (j = 12)) := by
  cases b with
  | false => simp
  | true =>
      rw [if_pos rfl, show (0x1000 : UInt64).toNat = 2 ^ 12 from rfl, Nat.testBit_two_pow]
      simp [eq_comm]

namespace PtElement

theorem bit_setLarge (e : PtElement) (v : Bool) (j : ℕ) :
    (e.setLarge v).bit j = if j = 7 then v else e.bit j :=
  @bit_setBit e 7 (by decide) v j

end PtElement

/-! ## The new table in memory -/

namespace PtMemory

variable (m : PtMemory)

@[simp] theorem read_write_self (q : HwPtep) (e : PtElement) : (m.write q e).read q = e := by
  cases q <;> simp [read, write]

theorem read_write_of_ne {q r : HwPtep} (e : PtElement) (h : q ≠ r) :
    (m.write r e).read q = m.read q := by
  cases q <;> cases r <;> simp_all [read, write]

/-- A run of writes leaves every entry it does not write. -/
theorem read_foldl_write_of_forall_ne (f : ℕ → HwPtep) (g : ℕ → PtElement) (l : List ℕ)
    {q : HwPtep} (h : ∀ i ∈ l, f i ≠ q) :
    (l.foldl (fun m i => m.write (f i) (g i)) m).read q = m.read q := by
  induction l generalizing m with
  | nil => rfl
  | cons i l ih =>
      rw [List.foldl_cons, ih _ fun j hj => h j (List.mem_cons_of_mem i hj),
        read_write_of_ne _ _ (Ne.symm (h i List.mem_cons_self))]

/-- A run of writes to distinct entries leaves at each the value written there. -/
theorem read_foldl_write_of_mem (f : ℕ → HwPtep) (hf : Function.Injective f)
    (g : ℕ → PtElement) {l : List ℕ} (hl : l.Nodup) {i : ℕ} (hi : i ∈ l) :
    (l.foldl (fun m i => m.write (f i) (g i)) m).read (f i) = g i := by
  induction l generalizing m with
  | nil => cases hi
  | cons j l ih =>
      obtain ⟨hj, hl'⟩ := List.nodup_cons.mp hl
      rw [List.foldl_cons]
      rcases List.mem_cons.mp hi with rfl | hi'
      · -- the later writes are to other entries
        rw [read_foldl_write_of_forall_ne _ _ _ _
          fun k hk hki => hj (by rwa [← hf hki]), read_write_self]
      · exact ih _ hl' hi'

end PtMemory

theorem entryAt_injective (pt : ℕ) : Function.Injective (entryAt pt) := by
  intro i j h
  simp only [entryAt, HwPtep.phys.injEq] at h
  omega

/-- The normal entry allocate_intermediate_level writes: make_pte(page, false, rwx). -/
theorem makePte_rwx (a : UInt64) :
    makePte a false permRwx = ((⟨0x67⟩ : PtElement).setAddr a false).setBit (63 : ℕ).toUInt64 false :=
  rfl

theorem bit_makePte_rwx (a : UInt64) (j : ℕ) :
    (makePte a false permRwx).bit j =
      (!decide (j = 63) && ((decide (j < 12) && (0x67 : ℕ).testBit j) || a.toNat.testBit j)) := by
  rw [makePte_rwx, PtElement.bit_setBit _ (by decide), PtElement.bit_setAddr]
  by_cases h63 : j = 63
  · simp [h63]
  · by_cases h12 : j < 12
    · simp [h63, h12, PtElement.bit]
    · have hhigh : (0x67 : ℕ).testBit j = false :=
        Nat.testBit_lt_two_pow (Nat.lt_of_lt_of_le (by decide) (Nat.pow_le_pow_right (by decide)
          (Nat.le_of_not_lt h12)))
      simp [h63, h12, PtElement.bit, hhigh]

section Page

variable {page : ℕ} (hpage : page % pageSize = 0) (hbound : page < 2 ^ 52)
include hpage hbound

/-- A page below `2 ^ 52` has no bit below `12` and none from `52` on. -/
theorem testBit_page (j : ℕ) :
    page.toUInt64.toNat.testBit j = (decide (12 ≤ j) && decide (j < 52) && page.testBit j) := by
  have hlt : page < 2 ^ 64 := Nat.lt_trans hbound (by decide)
  rw [Nat.toUInt64_eq, UInt64.toNat_ofNat', Nat.mod_eq_of_lt hlt]
  by_cases h12 : 12 ≤ j
  · by_cases h52 : j < 52
    · simp [h12, h52]
    · simp [h12, h52, Nat.testBit_lt_two_pow (Nat.lt_of_lt_of_le hbound
        (Nat.pow_le_pow_right (by decide) (Nat.le_of_not_lt h52)))]
  · -- the low bits are those of `page % 2 ^ 12`, which is zero
    have hlow : page.testBit j = (page % 2 ^ 12).testBit j := by
      rw [Nat.testBit_mod_two_pow]
      simp [Nat.lt_of_not_le h12]
    rw [hlow, show page % 2 ^ 12 = 0 from hpage]
    simp [h12]

theorem follow_makePte_rwx : follow (makePte page.toUInt64 false permRwx) = page := by
  apply Nat.eq_of_testBit_eq
  intro j
  rw [follow, PtElement.nextPtAddr, PtElement.testBit_addr, bit_makePte_rwx, testBit_page hpage hbound]
  by_cases h12 : 12 ≤ j
  · by_cases h52 : j < 52
    · simp [h12, h52, Nat.not_lt.mpr h12, show j ≠ 63 by omega]
    · simp [h52, Nat.testBit_lt_two_pow (Nat.lt_of_lt_of_le hbound
        (Nat.pow_le_pow_right (by decide) (Nat.le_of_not_lt h52)))]
  · have hlow : page.testBit j = (page % 2 ^ 12).testBit j := by
      rw [Nat.testBit_mod_two_pow]
      simp [Nat.lt_of_not_le h12]
    rw [hlow, show page % 2 ^ 12 = 0 from hpage]
    simp [h12]

theorem makePte_rwx_large : (makePte page.toUInt64 false permRwx).large = false := by
  rw [PtElement.large_eq, bit_makePte_rwx, testBit_page hpage hbound]
  simp [show (0x67 : ℕ).testBit 7 = false from rfl]

end Page

theorem makePte_rwx_present (a : UInt64) : (makePte a false permRwx).present = true := by
  rw [PtElement.present_eq, bit_makePte_rwx]
  simp [show (0x67 : ℕ).testBit 0 = true from rfl]

theorem ptIndex_lt (virt level : ℕ) : ptIndex virt level < 512 := Nat.mod_lt _ (by decide)

/-- The copy split_large_page makes keeps every bit but the large bit. -/
theorem bit_splitCopy (orig : PtElement) (level : ℕ) {j : ℕ} (hj : j ≠ 7) :
    (if level = 1 then orig.setLarge false else orig).bit j = orig.bit j := by
  split
  · rw [PtElement.bit_setLarge, if_neg hj]
  · rfl

/-! ## The translation through a new entry -/

/-- A 1G entry split into 2M entries: the piece of `v` keeps its translation. -/
theorem leafPhys_splitChild_two (orig : PtElement) (hres : ∀ j < 30, 13 ≤ j → orig.bit j = false)
    (v : UInt64) : leafPhys 1 (splitChild orig 2 (ptIndex v.toNat 1)) v = leafPhys 2 orig v := by
  rw [← UInt64.toNat_inj]
  apply Nat.eq_of_testBit_eq
  intro j
  rw [testBit_leafPhys (by decide), testBit_leafPhys (by decide), PtElement.testBit_addr,
    PtElement.testBit_addr, bit_splitChild orig _ 2 le_rfl (ptIndex_lt _ _), testBit_ptIndex]
  -- below `21` the offset of `v`; up to `30` the index of `v` in place of reserved bits; then
  -- the address of the entry
  rcases (by omega : j < 21 ∨ (21 ≤ j ∧ j < 30) ∨ (30 ≤ j ∧ j < 52) ∨ 52 ≤ j) with
    h | ⟨h1, h2⟩ | ⟨h1, h2⟩ | h
  · simp [h, show j < 30 by omega]
  · have hidx : j - 21 + 21 = j := by omega
    simp [h1, h2, Nat.not_lt.mpr h1, hres j h2 (by omega), show j - 21 < 9 by omega, hidx,
      show 12 ≤ j by omega, show j < 52 by omega, show j ≠ 12 by omega]
  · simp [Nat.not_lt.mpr h1, show ¬ j < 21 by omega, show ¬ j - 21 < 9 by omega, h2,
      show 12 ≤ j by omega, show j ≠ 12 by omega, show ¬ j < 12 by omega, show j ≠ 63 by omega]
  · simp [show ¬ j < 30 by omega, show ¬ j < 21 by omega, show ¬ j < 52 by omega]

/-- A 2M entry split into 4K entries: the piece of `v` keeps its translation, with bit `12`
added where the PAT bit of the entry is set. -/
theorem leafPhys_splitChild_one (orig : PtElement) (hres : ∀ j < 21, 13 ≤ j → orig.bit j = false)
    (v : UInt64) :
    leafPhys 0 (splitChild (orig.setLarge false) 1 (ptIndex v.toNat 0)) v =
      leafPhys 1 orig v ||| (if orig.bit 12 then 0x1000 else 0) := by
  rw [← UInt64.toNat_inj]
  apply Nat.eq_of_testBit_eq
  intro j
  rw [testBit_leafPhys (by decide), Word.testBit_or, testBit_leafPhys (by decide), testBit_pat,
    PtElement.testBit_addr, PtElement.testBit_addr, bit_splitChild _ _ 1 (by decide) (ptIndex_lt _ _),
    testBit_ptIndex, PtElement.bit_setLarge]
  -- bit `12` is where the PAT bit of the copy and the index of `v` meet
  rcases (by omega : j < 12 ∨ j = 12 ∨ (13 ≤ j ∧ j < 21) ∨ (21 ≤ j ∧ j < 52) ∨ 52 ≤ j) with
    h | rfl | ⟨h1, h2⟩ | ⟨h1, h2⟩ | h
  · simp [h, show j < 21 by omega, show j ≠ 12 by omega]
  · simp [Bool.or_comm]
  · have hidx : j - 12 + 12 = j := by omega
    simp [h2, show ¬ j < 12 by omega, show 12 ≤ j by omega, show j ≠ 7 by omega,
      show j ≠ 12 by omega, show j ≠ 63 by omega, hres j h2 h1, show j - 12 < 9 by omega, hidx,
      show j < 52 by omega]
  · simp [show ¬ j < 12 by omega, show ¬ j < 21 by omega, show 12 ≤ j by omega, h2,
      show j ≠ 7 by omega, show j ≠ 12 by omega, show j ≠ 63 by omega, show ¬ j - 12 < 9 by omega]
  · simp [show ¬ j < 12 by omega, show ¬ j < 21 by omega, show ¬ j < 52 by omega,
      show j ≠ 12 by omega]

/-- Bit `12` of `v` is the low bit of its index at level `0`. -/
theorem testBit_twelve_of_even {v : UInt64} (heven : ptIndex v.toNat 0 % 2 = 0) :
    v.toNat.testBit 12 = false := by
  have h := testBit_ptIndex v 0 0
  rw [Nat.testBit_zero, heven] at h
  simpa using h.symm

/-! ## The walk after the split -/

theorem read_allocateIntermediateLevel (m : PtMemory) (ptep : HwPtep) :
    (m.allocateIntermediateLevel ptep).read ptep = makePte m.nextPage.toUInt64 false permRwx :=
  PtMemory.read_write_self _ _ _

section Split

variable {m : PtMemory} {ptep : HwPtep} {level : ℕ}
  (hpage : m.nextPage % pageSize = 0) (hbound : m.nextPage < 2 ^ 52)
include hpage hbound

/-- The new table is the page allocate_intermediate_level took. -/
theorem splitLargePage_eq_foldl :
    splitLargePage m ptep level =
      (List.range 512).foldl (fun m' i => m'.write (entryAt m.nextPage i)
        (splitChild (if level = 1 then (m.read ptep).setLarge false else m.read ptep) level i))
        (m.allocateIntermediateLevel ptep) := by
  simp only [splitLargePage, read_allocateIntermediateLevel, follow_makePte_rwx hpage hbound]

/-- The replaced entry points to the new table, when it is not itself in that page. -/
theorem splitLargePage_read_ptep (hptep : ∀ i < 512, ptep ≠ entryAt m.nextPage i) :
    (splitLargePage m ptep level).read ptep = makePte m.nextPage.toUInt64 false permRwx := by
  rw [splitLargePage_eq_foldl hpage hbound,
    PtMemory.read_foldl_write_of_forall_ne _ _ _ _ fun i hi h => hptep i (List.mem_range.mp hi) h.symm,
    read_allocateIntermediateLevel]

theorem splitLargePage_read_child {i : ℕ} (hi : i < 512) :
    (splitLargePage m ptep level).read (entryAt m.nextPage i) =
      splitChild (if level = 1 then (m.read ptep).setLarge false else m.read ptep) level i := by
  rw [splitLargePage_eq_foldl hpage hbound,
    PtMemory.read_foldl_write_of_mem _ _ (entryAt_injective _) _ List.nodup_range
      (List.mem_range.mpr hi)]

variable (hptep : ∀ i < 512, ptep ≠ entryAt m.nextPage i)
include hptep

/-- The walk of `v` from the replaced entry takes one step, to the new entry of `v`'s piece. -/
theorem walkPt_splitLargePage (v : UInt64) (hlevel : level = 1 ∨ level = 2)
    (hlarge : level = 2 → (m.read ptep).large = true) :
    walkPt (splitLargePage m ptep level) v level ((splitLargePage m ptep level).read ptep) =
      some (level - 1, splitChild (if level = 1 then (m.read ptep).setLarge false else m.read ptep)
        level (ptIndex v.toNat (level - 1))) := by
  have hnot : (makePte m.nextPage.toUInt64 false permRwx).large = false :=
    makePte_rwx_large hpage hbound
  rcases hlevel with rfl | rfl
  · simp only [walkPt, splitLargePage_read_ptep hpage hbound hptep, hnot, makePte_rwx_present,
      follow_makePte_rwx hpage hbound, splitLargePage_read_child hpage hbound (ptIndex_lt _ _)]
    rfl
  · -- the new 2M entry is large, so the walk stops there
    have hchild : (splitChild (m.read ptep) 2 (ptIndex v.toNat 1)).large = true := by
      rw [PtElement.large_eq, splitChild_flag _ _ 2 le_rfl (ptIndex_lt _ _) (by decide),
        ← PtElement.large_eq, hlarge rfl]
    simp only [walkPt, splitLargePage_read_ptep hpage hbound hptep, hnot, makePte_rwx_present,
      follow_makePte_rwx hpage hbound, splitLargePage_read_child hpage hbound (ptIndex_lt _ _)]
    simp [hchild]

/-- **split_large_page keeps the mapping of a 1G page, and of a 2M page without the PAT bit.**
For a large entry whose reserved address bits are clear, the walk of every `v` goes from the
replaced entry to the new entry of `v`'s piece, which translates `v` to the same address, has
the entry's present, writable and nx bits, and is large exactly at level `2`. -/
theorem splitLargePage_walk (hlevel : level = 1 ∨ level = 2) (hlarge : (m.read ptep).large = true)
    (hres : ∀ j < 12 + 9 * level, 13 ≤ j → (m.read ptep).bit j = false)
    (hpat : level = 1 → (m.read ptep).bit 12 = false) (v : UInt64) :
    ∃ c, walkPt (splitLargePage m ptep level) v level ((splitLargePage m ptep level).read ptep) =
        some (level - 1, c) ∧
      leafPhys (level - 1) c v = leafPhys level (m.read ptep) v ∧
      c.present = (m.read ptep).present ∧ c.writable = (m.read ptep).writable ∧
      c.nx = (m.read ptep).nx ∧ c.large = decide (level = 2) := by
  have hle : level ≤ 2 := by omega
  -- the flags of the new entry are the copy's, and the copy's are the entry's
  have hflag : ∀ j, (j < 7 ∨ j = 63) →
      (splitChild (if level = 1 then (m.read ptep).setLarge false else m.read ptep) level
        (ptIndex v.toNat (level - 1))).bit j = (m.read ptep).bit j := fun j hj => by
    rw [splitChild_flag _ _ level hle (ptIndex_lt _ _) (by omega), bit_splitCopy _ _ (by omega)]
  refine ⟨_, walkPt_splitLargePage hpage hbound hptep v hlevel fun _ => hlarge, ?_, ?_, ?_, ?_, ?_⟩
  · rcases hlevel with rfl | rfl
    · rw [if_pos rfl, leafPhys_splitChild_one _ hres v, hpat rfl]
      simp
    · rw [if_neg (by decide)]
      exact leafPhys_splitChild_two _ hres v
  · rw [PtElement.present_eq, PtElement.present_eq, hflag 0 (by decide)]
  · rw [PtElement.writable_eq, PtElement.writable_eq, hflag 1 (by decide)]
  · rw [PtElement.nx_eq, PtElement.nx_eq, hflag 63 (by decide)]
  · rw [PtElement.large_eq, splitChild_flag _ _ level hle (ptIndex_lt _ _) (by decide)]
    rcases hlevel with rfl | rfl
    · simp [PtElement.bit_setLarge]
    · rw [if_neg (by decide), ← PtElement.large_eq, hlarge]
      rfl

/-- **At level 1 the PAT bit becomes an address bit.**  After split_large_page of a 2M entry
whose PAT bit is set, the new 4K entry of an even-numbered piece maps `v` one page above the
address the 2M entry mapped it to. -/
theorem split_large_page_pat_bit_moves_pages
    (hres : ∀ j < 21, 13 ≤ j → (m.read ptep).bit j = false)
    (hpat : (m.read ptep).bit 12 = true) (v : UInt64) (heven : ptIndex v.toNat 0 % 2 = 0) :
    ∃ c, walkPt (splitLargePage m ptep 1) v 1 ((splitLargePage m ptep 1).read ptep) = some (0, c) ∧
      leafPhys 0 c v = leafPhys 1 (m.read ptep) v ||| 0x1000 ∧
      leafPhys 0 c v ≠ leafPhys 1 (m.read ptep) v := by
  have hphys : leafPhys 0 (splitChild (if 1 = 1 then (m.read ptep).setLarge false else m.read ptep)
      1 (ptIndex v.toNat 0)) v = leafPhys 1 (m.read ptep) v ||| 0x1000 := by
    rw [if_pos rfl, leafPhys_splitChild_one _ hres v, hpat]
    rfl
  refine ⟨_, walkPt_splitLargePage hpage hbound hptep v (Or.inl rfl) (fun h => absurd h (by decide)),
    hphys, fun h => ?_⟩
  -- the old translation has bit `12` of `v`, clear for an even piece; the new one has it set
  have h12 := congrArg (fun w : UInt64 => w.toNat.testBit 12) (hphys.symm.trans h)
  rw [Word.testBit_or, testBit_leafPhys (by decide), if_pos (by decide),
    testBit_twelve_of_even heven] at h12
  exact absurd h12 (by decide)

end Split

/-- A present, writable, no-execute 2M entry at page_table_root for the page at `0x200000`,
with its PAT bit clear, and the next free page at `0x100000`. -/
def plainEntryMemory : PtMemory := ⟨⟨0x8000000000200083⟩, fun _ => ⟨0⟩, 0x100000⟩

/-- Split at level `1`, the entry maps `0x2AB123` to itself through the new 4K entry of its
piece, which keeps the present, writable and nx bits. -/
theorem splitLargePage_walk_plain :
    plainEntryMemory.nextPage % pageSize = 0 ∧ plainEntryMemory.nextPage < 2 ^ 52 ∧
      (∀ i < 512, HwPtep.root ≠ entryAt plainEntryMemory.nextPage i) ∧
      (plainEntryMemory.read .root).large = true ∧
      (∀ j < 12 + 9 * 1, 13 ≤ j → (plainEntryMemory.read .root).bit j = false) ∧
      (plainEntryMemory.read .root).bit 12 = false ∧
      leafPhys 1 (plainEntryMemory.read .root) 0x2AB123 = 0x2AB123 ∧
      ∃ c, walkPt (splitLargePage plainEntryMemory .root 1) 0x2AB123 1
          ((splitLargePage plainEntryMemory .root 1).read .root) = some (1 - 1, c) ∧
        leafPhys (1 - 1) c 0x2AB123 = leafPhys 1 (plainEntryMemory.read .root) 0x2AB123 ∧
        c.present = (plainEntryMemory.read .root).present ∧
        c.writable = (plainEntryMemory.read .root).writable ∧
        c.nx = (plainEntryMemory.read .root).nx ∧ c.large = decide (1 = 2) :=
  have hptep : ∀ i < 512, HwPtep.root ≠ entryAt plainEntryMemory.nextPage i := fun _ _ h => by
    cases h
  ⟨by decide, by decide, hptep, by decide, by decide, by decide, by decide,
    splitLargePage_walk (by decide) (by decide) hptep (.inl rfl) (by decide) (by decide)
      (fun _ => by decide) 0x2AB123⟩

/-- A 2M entry at page_table_root for the page at `0x200000` with its PAT bit set, and the next
free page at `0x100000`. -/
def patEntryMemory : PtMemory := ⟨⟨0x201081⟩, fun _ => ⟨0⟩, 0x100000⟩

theorem split_large_page_pat_bit_moves_pages_root :
    patEntryMemory.nextPage % pageSize = 0 ∧ patEntryMemory.nextPage < 2 ^ 52 ∧
      (∀ i < 512, HwPtep.root ≠ entryAt patEntryMemory.nextPage i) ∧
      (∀ j < 21, 13 ≤ j → (patEntryMemory.read .root).bit j = false) ∧
      (patEntryMemory.read .root).bit 12 = true ∧ ptIndex (0 : UInt64).toNat 0 % 2 = 0 ∧
      ∃ c, walkPt (splitLargePage patEntryMemory .root 1) 0 1
          ((splitLargePage patEntryMemory .root 1).read .root) = some (0, c) ∧
        leafPhys 0 c 0 = leafPhys 1 (patEntryMemory.read .root) 0 ||| 0x1000 ∧
        leafPhys 0 c 0 ≠ leafPhys 1 (patEntryMemory.read .root) 0 :=
  have hptep : ∀ i < 512, HwPtep.root ≠ entryAt patEntryMemory.nextPage i := fun _ _ h => by
    cases h
  ⟨by decide, by decide, hptep, by decide, by decide, by decide,
    split_large_page_pat_bit_moves_pages (by decide) (by decide) hptep (by decide) (by decide) 0
      (by decide)⟩

end Osv.Mmu.Hw
