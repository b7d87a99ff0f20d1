import Mathlib.Data.Int.Basic
import Osv.Core.TraceFormat
import Osv.Lib.MinElement

/-!
# Laying out an ELF object: `object::set_base` and `load_segments`

`set_base(base)` (`core/elf.cc`) chooses `_base`, the amount every `p_vaddr` is moved by.  It
takes the program header `std::min_element` picks with the comparator "`a` is a `PT_LOAD` and
`a.p_vaddr < b.p_vaddr`", and moves its `p_vaddr` to the first address from `base` on that is
congruent to it modulo its `p_align`; `_end` is `_base` plus the end of the header the same
search picks with `>`.  `load_segments` then walks the headers: `load_segment` maps the file
pages of each `PT_LOAD` with `mmu::map_file`, zeroes the rest of the last file page, and maps
anonymous zero pages up to the end of the segment; `PT_DYNAMIC` and `PT_TLS` are recorded, the
other known types skipped, and any other type aborts.

**The model.**  Header fields are natural numbers; `_base` is the integer it is as a difference
of addresses, and the address space's bytes are a function on integers, `Memory`.
`align_down` and `align_up` are those of `align.hh` (`Osv.Core.alignDown`), and
`p_vaddr & (p_align - 1)` is `p_vaddr % p_align`, as both are for the alignments ELF allows,
zero and the powers of two.  `mmu::map_file` leaves in its pages the file's bytes from the
offset, zero past the end of the file, and `mmu::map_anon` zeros.

**What holds.**  `std::min_element` with a comparator that is irreflexive and transitive, as
both of `set_base`'s are, returns an element below which nothing compares
(`MinElement.minElement_minimal`), so `set_base` picks a header with no `PT_LOAD` below it.  When
the first header is a `PT_LOAD` that header is itself a `PT_LOAD`, and the lowest `PT_LOAD`'s
`p_vaddr` lands at an address from `base` on, congruent modulo its alignment
(`setBase_of_head_load`).  Each `load_segment` puts the file's bytes at `[p_vaddr, p_vaddr +
p_filesz)` and zeros up to `p_vaddr + p_memsz` when `p_vaddr` and `p_offset` agree modulo the
page size (`loadSegment_loaded`), touching nothing outside the pages of the segment
(`loadSegment_frame`); so `load_segments` over headers of known types whose `PT_LOAD` pages do
not overlap loads every segment (`loadSegments_loaded`).

**What does not** (`set_base_non_load_first`).  Neither comparator is a strict weak order, and a
header that is not a `PT_LOAD` is never replaced by a `PT_LOAD` at the same address: with a
`PT_GNU_STACK` header at address `0` first, `set_base` aligns `_base` to the stack header's
sixteen bytes, not to the `PT_LOAD`'s `0x200000`, and `_end` is `_base`.
-/

namespace Osv.Core

open MinElement

/-! ## Program headers -/

/-- `PT_NULL` -/
def PT_NULL : UInt32 := 0
/-- `PT_LOAD` -/
def PT_LOAD : UInt32 := 1
/-- `PT_DYNAMIC` -/
def PT_DYNAMIC : UInt32 := 2
/-- `PT_INTERP` -/
def PT_INTERP : UInt32 := 3
/-- `PT_NOTE` -/
def PT_NOTE : UInt32 := 4
/-- `PT_PHDR` -/
def PT_PHDR : UInt32 := 6
/-- `PT_TLS` -/
def PT_TLS : UInt32 := 7
/-- `PT_GNU_EH_FRAME` -/
def PT_GNU_EH_FRAME : UInt32 := 0x6474e550
/-- `PT_GNU_STACK` -/
def PT_GNU_STACK : UInt32 := 0x6474e551
/-- `PT_GNU_RELRO` -/
def PT_GNU_RELRO : UInt32 := 0x6474e552
/-- `PT_PAX_FLAGS` -/
def PT_PAX_FLAGS : UInt32 := 0x65041580

/-- An `Elf64_Phdr`, without the `p_flags` and `p_paddr` nothing here reads. -/
structure Phdr where
  type : UInt32
  offset : ℕ
  vaddr : ℕ
  filesz : ℕ
  memsz : ℕ
  align : ℕ
  deriving DecidableEq, Repr

/-- `page_size` of `elf.cc`, equal to `mmu::page_size`. -/
def pageSize : ℕ := 4096

/-! ## `set_base` -/

/-- `align(addr, align, offset)`: the first address from `addr` on that is `offset` more than a
multiple of `align`. -/
def align (addr a offset : ℕ) : ℕ := alignUp (addr - offset) a + offset

/-- The comparator of `set_base`'s first `min_element`. -/
def loadBelow (a b : Phdr) : Bool := a.type = PT_LOAD && a.vaddr < b.vaddr

/-- The comparator of `set_base`'s second `min_element`. -/
def loadAbove (a b : Phdr) : Bool := a.type = PT_LOAD && a.vaddr > b.vaddr

/-- `object::set_base(base)`: `_base` and `_end`, or `none` for the empty table whose
`min_element` is the end iterator the source dereferences. -/
def setBase (phdrs : List Phdr) (base : ℕ) : Option (ℤ × ℤ) := do
  let p ← minElement loadBelow phdrs
  let b : ℤ := (align base p.align (p.vaddr % p.align) : ℤ) - p.vaddr
  let q ← minElement loadAbove phdrs
  pure (b, b + q.vaddr + q.memsz)

/-! ## `load_segment` -/

/-- The bytes of the address space, by address. -/
abbrev Memory := ℤ → UInt8

namespace Memory

/-- What `mmu::map_file(addr, size, ..., f, offset, ...)` leaves in its pages: they are
zero-filled, then `min(size, fsize - offset)` bytes of the file from `offset` are read in. -/
def mapFile (m : Memory) (addr : ℤ) (size : ℕ) (f : List UInt8) (offset : ℕ) : Memory :=
  fun a => if addr ≤ a ∧ a < addr + alignUp size pageSize then
      if a < addr + size then f.getD (offset + (a - addr).toNat) 0 else 0
    else m a

/-- What `mmu::map_anon(addr, size, mmap_fixed, ...)` leaves in its pages: zeros. -/
def mapAnon (m : Memory) (addr : ℤ) (size : ℕ) : Memory :=
  fun a => if addr ≤ a ∧ a < addr + alignUp size pageSize then 0 else m a

/-- `memset(addr, 0, len)` -/
def memset (m : Memory) (addr : ℤ) (len : ℕ) : Memory :=
  fun a => if addr ≤ a ∧ a < addr + len then 0 else m a

variable {m : Memory} {addr a : ℤ}

theorem mapFile_of_lt {size : ℕ} {f : List UInt8} {offset : ℕ} (h1 : addr ≤ a)
    (h2 : a < addr + size) : m.mapFile addr size f offset a = f.getD (offset + (a - addr).toNat) 0 := by
  have hup := le_alignUp (n := size) (show 0 < pageSize by decide)
  rw [mapFile, if_pos ⟨h1, by omega⟩, if_pos h2]

theorem mapFile_of_not_mem {size : ℕ} {f : List UInt8} {offset : ℕ}
    (h : a < addr ∨ addr + alignUp size pageSize ≤ a) : m.mapFile addr size f offset a = m a := by
  rw [mapFile, if_neg (by omega)]

theorem mapAnon_of_mem {size : ℕ} (h1 : addr ≤ a) (h2 : a < addr + alignUp size pageSize) :
    m.mapAnon addr size a = 0 := by
  rw [mapAnon, if_pos ⟨h1, h2⟩]

theorem mapAnon_of_not_mem {size : ℕ} (h : a < addr ∨ addr + alignUp size pageSize ≤ a) :
    m.mapAnon addr size a = m a := by
  rw [mapAnon, if_neg (by omega)]

theorem memset_of_mem {len : ℕ} (h1 : addr ≤ a) (h2 : a < addr + len) : m.memset addr len a = 0 := by
  rw [memset, if_pos ⟨h1, h2⟩]

theorem memset_of_not_mem {len : ℕ} (h : a < addr ∨ addr + len ≤ a) : m.memset addr len a = m a := by
  rw [memset, if_neg (by omega)]

end Memory

/-- `file::load_segment(phdr)` for an object at `base` read from the file `f`. -/
def loadSegment (m : Memory) (base : ℤ) (f : List UInt8) (phdr : Phdr) : Memory :=
  let vstart := alignDown phdr.vaddr pageSize
  let fileszUnaligned := phdr.vaddr + phdr.filesz - vstart
  let filesz := alignUp fileszUnaligned pageSize
  let memsz := alignUp (phdr.vaddr + phdr.memsz) pageSize - vstart
  let m := m.mapFile (base + vstart) filesz f (alignDown phdr.offset pageSize)
  let m := m.memset (base + vstart + fileszUnaligned) (filesz - fileszUnaligned)
  m.mapAnon (base + vstart + filesz) (memsz - filesz)

/-- What `load_segments` changes: the memory, `_dynamic_table` and the three TLS fields. -/
structure Loaded where
  mem : Memory
  dynamicTable : Option ℤ
  tlsSegment : Option ℤ
  tlsInitSize : ℕ
  tlsUninitSize : ℕ

/-- The types of the `case` list of `load_segments` that ends in `break`. -/
def skippedTypes : List UInt32 :=
  [PT_INTERP, PT_NOTE, PT_PHDR, PT_GNU_STACK, PT_GNU_RELRO, PT_GNU_EH_FRAME, PT_PAX_FLAGS]

/-- `object::load_segments()` over the headers, or `none` at the `abort()` of an unknown type. -/
def loadSegments (base : ℤ) (f : List UInt8) : List Phdr → Loaded → Option Loaded
  | [], s => some s
  | phdr :: phdrs, s =>
    if phdr.type = PT_NULL then loadSegments base f phdrs s
    else if phdr.type = PT_LOAD then
      loadSegments base f phdrs { s with mem := loadSegment s.mem base f phdr }
    else if phdr.type = PT_DYNAMIC then
      loadSegments base f phdrs { s with dynamicTable := some (base + phdr.vaddr) }
    else if phdr.type ∈ skippedTypes then loadSegments base f phdrs s
    else if phdr.type = PT_TLS then
      loadSegments base f phdrs
        { s with
          tlsSegment := some (base + phdr.vaddr)
          tlsInitSize := phdr.filesz
          tlsUninitSize := phdr.memsz - phdr.filesz }
    else none

/-! ## The header `set_base` picks -/

section Pick

theorem loadBelow_irrefl (a : Phdr) : loadBelow a a = false := by
  simp [loadBelow]

theorem loadBelow_trans (a b c : Phdr) (hab : loadBelow a b) (hbc : loadBelow b c) :
    loadBelow a c := by
  simp only [loadBelow, Bool.and_eq_true, decide_eq_true_eq] at hab hbc ⊢
  exact ⟨hab.1, Nat.lt_trans hab.2 hbc.2⟩

theorem loadAbove_irrefl (a : Phdr) : loadAbove a a = false := by
  simp [loadAbove]

theorem loadAbove_trans (a b c : Phdr) (hab : loadAbove a b) (hbc : loadAbove b c) :
    loadAbove a c := by
  simp only [loadAbove, Bool.and_eq_true, decide_eq_true_eq] at hab hbc ⊢
  exact ⟨hab.1, Nat.lt_trans hbc.2 hab.2⟩

/-- No `PT_LOAD` lies below the header of the first search. -/
theorem minElement_loadBelow {phdrs : List Phdr} {p : Phdr}
    (h : minElement loadBelow phdrs = some p) :
    ∀ x ∈ phdrs, x.type = PT_LOAD → p.vaddr ≤ x.vaddr := by
  intro x hx hload
  have hmin := minElement_minimal loadBelow_trans loadBelow_irrefl h x hx
  simp only [loadBelow, Bool.and_eq_false_iff, decide_eq_false_iff_not, hload,
    not_true_eq_false, false_or, Nat.not_lt] at hmin
  exact hmin

/-- No `PT_LOAD` lies above the header of the second search. -/
theorem minElement_loadAbove {phdrs : List Phdr} {q : Phdr}
    (h : minElement loadAbove phdrs = some q) :
    ∀ x ∈ phdrs, x.type = PT_LOAD → x.vaddr ≤ q.vaddr := by
  intro x hx hload
  have hmin := minElement_minimal loadAbove_trans loadAbove_irrefl h x hx
  simp only [loadAbove, Bool.and_eq_false_iff, decide_eq_false_iff_not, hload,
    not_true_eq_false, false_or, gt_iff_lt, Nat.not_lt] at hmin
  exact hmin

/-- Both comparators prefer only `PT_LOAD`s, so a search that starts from one ends at one. -/
theorem minElement_isLoad {comp : Phdr → Phdr → Bool} (hcomp : ∀ a b, comp a b → a.type = PT_LOAD)
    {p0 p : Phdr} {rest : List Phdr} (h : minElement comp (p0 :: rest) = some p)
    (hp0 : p0.type = PT_LOAD) : p.type = PT_LOAD :=
  minElement_induction (fun x => x.type = PT_LOAD) (fun s x _ hc => hcomp x s hc) h hp0

/-- `align(addr, a, o)` is at least `addr` and `o` more than a multiple of `a`. -/
theorem align_spec (addr : ℕ) {a o : ℕ} (ha : 0 < a) (ho : o < a) :
    addr ≤ align addr a o ∧ align addr a o % a = o := by
  have hup := le_alignUp (n := addr - o) ha
  refine ⟨by unfold align; omega, ?_⟩
  rw [align, alignUp, alignDown, Nat.add_comm, Nat.add_mul_mod_self_right, Nat.mod_eq_of_lt ho]

/-- **When the first header is a `PT_LOAD`**, `set_base` moves the lowest `PT_LOAD` to an
address from `base` on, congruent to its `p_vaddr` modulo its alignment, and `_end` is the end
of the highest `PT_LOAD`. -/
theorem setBase_of_head_load {p0 : Phdr} {rest : List Phdr} (hp0 : p0.type = PT_LOAD)
    (base : ℕ) :
    ∃ p ∈ p0 :: rest, ∃ q ∈ p0 :: rest, p.type = PT_LOAD ∧ q.type = PT_LOAD ∧
      (∀ x ∈ p0 :: rest, x.type = PT_LOAD → p.vaddr ≤ x.vaddr ∧ x.vaddr ≤ q.vaddr) ∧
      ∃ b : ℤ, setBase (p0 :: rest) base = some (b, b + q.vaddr + q.memsz) ∧
        (0 < p.align → (base : ℤ) ≤ b + p.vaddr ∧ (b + p.vaddr) % p.align = p.vaddr % p.align) := by
  obtain ⟨p, hp⟩ : ∃ p, minElement loadBelow (p0 :: rest) = some p := ⟨_, rfl⟩
  obtain ⟨q, hq⟩ : ∃ q, minElement loadAbove (p0 :: rest) = some q := ⟨_, rfl⟩
  have hpl : p.type = PT_LOAD := minElement_isLoad (fun a b h => by
    simp only [loadBelow, Bool.and_eq_true, decide_eq_true_eq] at h; exact h.1) hp hp0
  have hql : q.type = PT_LOAD := minElement_isLoad (fun a b h => by
    simp only [loadAbove, Bool.and_eq_true, decide_eq_true_eq] at h; exact h.1) hq hp0
  refine ⟨p, minElement_mem hp, q, minElement_mem hq, hpl, hql,
    fun x hx hl => ⟨minElement_loadBelow hp x hx hl, minElement_loadAbove hq x hx hl⟩,
    (align base p.align (p.vaddr % p.align) : ℤ) - p.vaddr, ?_, fun ha => ?_⟩
  · simp only [setBase, hp, hq]
    rfl
  · obtain ⟨hle, hmod⟩ := align_spec base ha (Nat.mod_lt p.vaddr ha)
    rw [Int.sub_add_cancel]
    exact ⟨by exact_mod_cast hle, by exact_mod_cast hmod⟩

end Pick

/-! ## What `load_segment` leaves in memory -/

section Segment

/-- The first address of the pages of a segment, before `_base` is added. -/
def Phdr.pagesStart (ph : Phdr) : ℕ := alignDown ph.vaddr pageSize

/-- The end of the pages of a segment, before `_base` is added. -/
def Phdr.pagesEnd (ph : Phdr) : ℕ := alignUp (ph.vaddr + ph.memsz) pageSize

/-- The bytes of a segment are in place: the file's from `p_offset` over `p_filesz`, then
zeros up to `p_memsz`. -/
def SegmentLoaded (m : Memory) (base : ℤ) (f : List UInt8) (ph : Phdr) : Prop :=
  (∀ v, ph.vaddr ≤ v → v < ph.vaddr + ph.filesz →
      m (base + v) = f.getD (ph.offset + (v - ph.vaddr)) 0) ∧
    ∀ v, ph.vaddr + ph.filesz ≤ v → v < ph.vaddr + ph.memsz → m (base + v) = 0

variable {m : Memory} {base : ℤ} {f : List UInt8} {ph : Phdr}

/-- `load_segment` changes nothing outside the pages of the segment. -/
theorem loadSegment_frame (hle : ph.filesz ≤ ph.memsz) {a : ℤ}
    (ha : a < base + ph.pagesStart ∨ base + ph.pagesEnd ≤ a) : loadSegment m base f ph a = m a := by
  simp only [Phdr.pagesStart, Phdr.pagesEnd, alignUp, alignDown, pageSize] at ha
  simp only [loadSegment]
  rw [Memory.mapAnon_of_not_mem (by simp only [alignUp, alignDown, pageSize]; omega),
    Memory.memset_of_not_mem (by simp only [alignUp, alignDown, pageSize]; omega),
    Memory.mapFile_of_not_mem (by simp only [alignUp, alignDown, pageSize]; omega)]

/-- **`load_segment` loads the segment** when `p_vaddr` and `p_offset` agree modulo the page
size: the file page that `map_file` starts from is the one holding `p_offset`. -/
theorem loadSegment_loaded (hcong : ph.vaddr % pageSize = ph.offset % pageSize)
    (hle : ph.filesz ≤ ph.memsz) : SegmentLoaded (loadSegment m base f ph) base f ph := by
  simp only [pageSize] at hcong
  constructor
  · -- a byte of the file part: past neither `memset` nor `map_anon`, inside `map_file`
    intro v hv1 hv2
    simp only [loadSegment]
    rw [Memory.mapAnon_of_not_mem (by simp only [alignUp, alignDown, pageSize]; omega),
      Memory.memset_of_not_mem (by simp only [alignUp, alignDown, pageSize]; omega),
      Memory.mapFile_of_lt (by simp only [alignDown, pageSize]; omega)
        (by simp only [alignUp, alignDown, pageSize]; omega)]
    have hk : base + (v : ℤ) - (base + (alignDown ph.vaddr pageSize : ℕ)) =
        ((v - alignDown ph.vaddr pageSize : ℕ) : ℤ) := by
      simp only [alignDown, pageSize]
      omega
    rw [hk, Int.toNat_natCast]
    congr 1
    simp only [alignDown, pageSize]
    omega
  · -- a byte of the zero part: cleared by `memset` in the last file page, else by `map_anon`
    intro v hv1 hv2
    simp only [loadSegment]
    by_cases hv : v < alignDown ph.vaddr pageSize +
        alignUp (ph.vaddr + ph.filesz - alignDown ph.vaddr pageSize) pageSize
    · rw [Memory.mapAnon_of_not_mem (by omega),
        Memory.memset_of_mem (by simp only [alignUp, alignDown, pageSize] at hv ⊢; omega)
          (by simp only [alignUp, alignDown, pageSize] at hv ⊢; omega)]
    · rw [Memory.mapAnon_of_mem (by omega) (by simp only [alignUp, alignDown, pageSize] at hv ⊢; omega)]

end Segment

/-! ## `load_segments` -/

section Segments

/-- The types `load_segments` has a `case` for. -/
def knownTypes : List UInt32 := PT_NULL :: PT_LOAD :: PT_DYNAMIC :: PT_TLS :: skippedTypes

/-- Two `PT_LOAD`s whose pages do not overlap. -/
def PagesApart (a b : Phdr) : Prop :=
  a.type = PT_LOAD → b.type = PT_LOAD → a.pagesEnd ≤ b.pagesStart ∨ b.pagesEnd ≤ a.pagesStart

variable {base : ℤ} {f : List UInt8}

/-- A `PT_LOAD` header is loaded and the loop goes on. -/
theorem loadSegments_cons_load {ph : Phdr} {phdrs : List Phdr} {s : Loaded}
    (h : ph.type = PT_LOAD) : loadSegments base f (ph :: phdrs) s =
      loadSegments base f phdrs { s with mem := loadSegment s.mem base f ph } := by
  exact (if_neg (by rw [h]; decide)).trans (if_pos h)

/-- Any other known header leaves the memory as it is. -/
theorem loadSegments_cons_other {ph : Phdr} {phdrs : List Phdr} {s : Loaded}
    (hk : ph.type ∈ knownTypes) (h : ph.type ≠ PT_LOAD) :
    ∃ s₁ : Loaded, s₁.mem = s.mem ∧ loadSegments base f (ph :: phdrs) s = loadSegments base f phdrs s₁ := by
  rw [loadSegments, if_neg h]
  by_cases h0 : ph.type = PT_NULL
  · exact ⟨s, rfl, by rw [if_pos h0]⟩
  rw [if_neg h0]
  by_cases hd : ph.type = PT_DYNAMIC
  · exact ⟨{ s with dynamicTable := some (base + ph.vaddr) }, rfl, by rw [if_pos hd]⟩
  rw [if_neg hd]
  by_cases hs : ph.type ∈ skippedTypes
  · exact ⟨s, rfl, by rw [if_pos hs]⟩
  rw [if_neg hs]
  -- what is left of the known types is `PT_TLS`
  have ht : ph.type = PT_TLS := by
    simp only [knownTypes, List.mem_cons] at hk
    rcases hk with h' | h' | h' | h' | h'
    · exact absurd h' h0
    · exact absurd h' h
    · exact absurd h' hd
    · exact h'
    · exact absurd h' hs
  refine ⟨{ s with
      tlsSegment := some (base + ph.vaddr)
      tlsInitSize := ph.filesz
      tlsUninitSize := ph.memsz - ph.filesz }, rfl, ?_⟩
  rw [if_pos ht]

/-- The loop changes nothing outside the pages of its `PT_LOAD`s. -/
theorem loadSegments_frame : ∀ {phdrs : List Phdr} {s s' : Loaded},
    loadSegments base f phdrs s = some s' →
    (∀ ph ∈ phdrs, ph.type = PT_LOAD → ph.filesz ≤ ph.memsz) → ∀ a : ℤ,
    (∀ ph ∈ phdrs, ph.type = PT_LOAD → a < base + ph.pagesStart ∨ base + ph.pagesEnd ≤ a) →
    s'.mem a = s.mem a
  | [], s, s', h, _, a, _ => by
    cases h
    rfl
  | ph :: phdrs, s, s', h, hle, a, ha => by
    have hle' := fun ph' hph' => hle ph' (List.mem_cons_of_mem ph hph')
    have ha' := fun ph' hph' => ha ph' (List.mem_cons_of_mem ph hph')
    by_cases hl : ph.type = PT_LOAD
    · rw [loadSegments_cons_load hl] at h
      rw [loadSegments_frame h hle' a ha']
      exact loadSegment_frame (hle ph List.mem_cons_self hl) (ha ph List.mem_cons_self hl)
    · by_cases hk : ph.type ∈ knownTypes
      · obtain ⟨s₁, hmem, hs⟩ : ∃ s₁ : Loaded, s₁.mem = s.mem ∧
            loadSegments base f (ph :: phdrs) s = loadSegments base f phdrs s₁ :=
          loadSegments_cons_other hk hl
        rw [hs] at h
        rw [loadSegments_frame h hle' a ha', hmem]
      · rw [loadSegments] at h
        simp only [knownTypes, List.mem_cons, not_or] at hk
        rw [if_neg hk.1, if_neg hk.2.1, if_neg hk.2.2.1, if_neg hk.2.2.2.2, if_neg hk.2.2.2.1] at h
        cases h

/-- A segment's bytes only depend on the memory inside its pages. -/
theorem SegmentLoaded.congr {m m' : Memory} {ph : Phdr} (h : SegmentLoaded m base f ph)
    (hle : ph.filesz ≤ ph.memsz)
    (hm : ∀ v, ph.pagesStart ≤ v → v < ph.pagesEnd → m' (base + v) = m (base + v)) :
    SegmentLoaded m' base f ph := by
  have hin : ∀ v, ph.vaddr ≤ v → v < ph.vaddr + ph.memsz → m' (base + v) = m (base + v) :=
    fun v h1 h2 => hm v (by simp only [Phdr.pagesStart, alignDown, pageSize]; omega)
      (by simp only [Phdr.pagesEnd, alignUp, alignDown, pageSize]; omega)
  constructor
  · intro v h1 h2
    rw [hin v h1 (by omega)]
    exact h.1 v h1 h2
  · intro v h1 h2
    rw [hin v (by omega) h2]
    exact h.2 v h1 h2

/-- **`load_segments` loads every segment** of a table of known types whose `PT_LOAD`s have
`p_vaddr` and `p_offset` agreeing modulo the page size, `p_filesz` at most `p_memsz`, and pages
that do not overlap. -/
theorem loadSegments_loaded : ∀ {phdrs : List Phdr} (s : Loaded),
    (∀ ph ∈ phdrs, ph.type ∈ knownTypes) →
    (∀ ph ∈ phdrs, ph.type = PT_LOAD →
      ph.vaddr % pageSize = ph.offset % pageSize ∧ ph.filesz ≤ ph.memsz) →
    phdrs.Pairwise PagesApart →
    ∃ s', loadSegments base f phdrs s = some s' ∧
      ∀ ph ∈ phdrs, ph.type = PT_LOAD → SegmentLoaded s'.mem base f ph
  | [], s, _, _, _ => ⟨s, rfl, fun _ h => absurd h List.not_mem_nil⟩
  | ph :: phdrs, s, hk, hseg, hapart => by
    have hk' := fun ph' hph' => hk ph' (List.mem_cons_of_mem ph hph')
    have hseg' := fun ph' hph' => hseg ph' (List.mem_cons_of_mem ph hph')
    have hle' := fun ph' hph' hl => (hseg' ph' hph' hl).2
    obtain ⟨hfirst, hapart'⟩ := List.pairwise_cons.mp hapart
    by_cases hl : ph.type = PT_LOAD
    · obtain ⟨s', hs', hloaded⟩ :=
        loadSegments_loaded { s with mem := loadSegment s.mem base f ph } hk' hseg' hapart'
      refine ⟨s', by rw [loadSegments_cons_load hl, hs'], fun ph' hph' hl' => ?_⟩
      rcases List.mem_cons.mp hph' with rfl | hph'
      · -- the later segments keep off this one's pages
        obtain ⟨hcong, hle⟩ := hseg ph' List.mem_cons_self hl
        have hph : SegmentLoaded (loadSegment s.mem base f ph') base f ph' :=
          loadSegment_loaded hcong hle
        refine hph.congr hle fun v h1 h2 => loadSegments_frame hs' hle' (base + v) fun b hb hbl => ?_
        rcases hfirst b hb hl hbl with h | h
        · omega
        · omega
      · exact hloaded ph' hph' hl'
    · obtain ⟨s₁, -, hs⟩ : ∃ s₁ : Loaded, s₁.mem = s.mem ∧
          loadSegments base f (ph :: phdrs) s = loadSegments base f phdrs s₁ :=
        loadSegments_cons_other (hk ph List.mem_cons_self) hl
      obtain ⟨s', hs', hloaded⟩ := loadSegments_loaded s₁ hk' hseg' hapart'
      refine ⟨s', by rw [hs, hs'], fun ph' hph' hl' => ?_⟩
      rcases List.mem_cons.mp hph' with rfl | hph'
      · exact absurd hl' hl
      · exact hloaded ph' hph' hl'

end Segments

/-! ## A table with a `PT_GNU_STACK` header first -/

/-- A `PT_GNU_STACK` header as linkers write it: address `0`, nothing in the file or memory, an
alignment of sixteen. -/
def gnuStackHdr : Phdr := ⟨PT_GNU_STACK, 0, 0, 0, 0, 16⟩

/-- One page of text at address `0`, aligned to `0x200000`. -/
def textHdr : Phdr := ⟨PT_LOAD, 0, 0, 0x1000, 0x1000, 0x200000⟩

/-- **With a non-`PT_LOAD` header first, `set_base` keeps it.**  For every load address
aligned to sixteen bytes but not to `0x200000`, `_base` is the load address itself, so the text
segment's `p_vaddr` `0` lands at an address not congruent to `0` modulo its alignment, and
`_end` is `_base`, not the end of the text. -/
theorem set_base_non_load_first (base : ℕ) (h16 : base % 16 = 0) (hb : base % 0x200000 ≠ 0) :
    setBase [gnuStackHdr, textHdr] base = some ((base : ℤ), (base : ℤ)) ∧
      ((base : ℤ) + textHdr.vaddr) % textHdr.align ≠ textHdr.vaddr % textHdr.align ∧
      (base : ℤ) ≠ base + textHdr.vaddr + textHdr.memsz := by
  -- neither search replaces the stack header: the text is at the same address `0`
  have hpick : minElement loadBelow [gnuStackHdr, textHdr] = some gnuStackHdr := rfl
  have hpick' : minElement loadAbove [gnuStackHdr, textHdr] = some gnuStackHdr := rfl
  have halign : align base 16 0 = base := by
    simp only [align, alignUp, alignDown, Nat.sub_zero, Nat.add_zero]
    omega
  refine ⟨?_, ?_, ?_⟩
  · rw [setBase, hpick, hpick']
    change some ((align base 16 0 : ℤ) - (0 : ℕ), (align base 16 0 : ℤ) - (0 : ℕ) + (0 : ℕ) + (0 : ℕ)) = _
    rw [halign, Option.some.injEq, Prod.mk.injEq]
    omega
  · simp only [textHdr]
    omega
  · simp only [textHdr]
    omega

theorem set_base_non_load_first_page :
    0x1000 % 16 = 0 ∧ 0x1000 % 0x200000 ≠ 0 ∧
      (setBase [gnuStackHdr, textHdr] 0x1000 = some (((0x1000 : ℕ) : ℤ), ((0x1000 : ℕ) : ℤ)) ∧
        ((0x1000 : ℕ) + (textHdr.vaddr : ℤ)) % textHdr.align ≠ textHdr.vaddr % textHdr.align ∧
        ((0x1000 : ℕ) : ℤ) ≠ (0x1000 : ℕ) + textHdr.vaddr + textHdr.memsz) :=
  ⟨by decide, by decide, set_base_non_load_first 0x1000 (by decide) (by decide)⟩

end Osv.Core
