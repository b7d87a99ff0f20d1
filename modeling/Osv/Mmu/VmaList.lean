import Mathlib.Data.List.Nodup
import Mathlib.Data.List.TakeWhile
import Osv.Lib.Transition

/-!
# The vma list

**The model.**  vma_list of core/mmu.cc is a boost intrusive set of vmas ordered by
vma_compare, the start address, so that two vmas of one start cannot both be in it: the
second insert fails and leaves the set as it was.  A `VmaList` is that set as the list of
its elements in order, with the supply of identities of new objects (`next`); the identity
of a vma is the object, which the loops of evacuate and protect follow while split inserts
new pieces behind them.  Address arithmetic is that of uintptr_t (`uadd`, `usub`); the vma
constructor and vma::set round the start down and the end up (`newVma`, `Vma.set`), split
does not round the edge it keeps as _end (`VmaList.split`), and file_vma::split gives the
new piece the offset of the unrounded edge (`Vma.piece`).  The libc calls mmap, munmap and
mprotect are `mman`, and the system of this module runs them from the two markers that
vma_list_type() inserts (`vmaSystem`).  The page tables that populate, unpopulate and
protection walk are not part of this module.

**What holds.**  Every reachable list is ordered by start with no start twice, and every
identity in it is below `next` and occurs once (`inv_reachable`).  On a list of pairwise
disjoint vmas, find_hole returns a hole (`findHole_disjoint`) and so does allocate without
mmap_fixed (`allocate_search_disjoint`).  A piece split off a file vma at an edge maps each
of its addresses to the original offset plus the edge's distance from its page
(`offset_piece`): the offsets agree exactly when the edge is page aligned.  On a well-formed
list with one vma to an identity, ismapped of a non-empty range that does not wrap is true
exactly when every byte of the range lies in a vma (`ismapped_iff_covers`).

**What does not.**  munmap hands unmap an address it never aligns, so the edges of an
unaligned munmap reach split unaligned.  The pieces then overlap and end off a page, a file
piece maps its addresses to the wrong offsets, and a later mmap without MAP_FIXED, whose
find_hole computes the gap between two overlapping vmas as a huge unsigned number, returns
a range that overlaps a vma.  An aligned munmap across 0x800000000000 erases the top
marker, after which every mmap without MAP_FIXED aborts in find_hole.
-/

namespace Osv.Mmu

open Transition

/-! ## Addresses -/

/-- mmu::page_size. -/
def pageSize : ℕ := 4096

/-- The number of values of uintptr_t, modulo which the address arithmetic of mmu.cc wraps. -/
def wordSize : ℕ := 2 ^ 64

/-- The sum of two uintptr_t values. -/
def uadd (a b : ℕ) : ℕ := (a + b) % wordSize

/-- The difference of two uintptr_t values, which wraps below zero. -/
def usub (a b : ℕ) : ℕ := (a + wordSize - b) % wordSize

/-- align_down(ptr) of mmu.cc: ptr & ~(page_size - 1). -/
def alignDown (ptr : ℕ) : ℕ := ptr / pageSize * pageSize

/-- align_up(ptr) of mmu.cc: align_down(ptr + page_size - 1) in uintptr_t.  The align_up of
align.hh that unmap, map_anon and map_file call computes the same at page_size. -/
def alignUp (ptr : ℕ) : ℕ := alignDown (uadd ptr (pageSize - 1))

theorem uadd_of_lt {a b : ℕ} (h : a + b < wordSize) : uadd a b = a + b :=
  Nat.mod_eq_of_lt h

theorem usub_of_le {a b : ℕ} (ha : a < wordSize) (h : b ≤ a) : usub a b = a - b := by
  unfold usub
  rw [show a + wordSize - b = a - b + wordSize by omega, Nat.add_mod_right]
  exact Nat.mod_eq_of_lt (by omega)

theorem alignDown_add_mod (ptr : ℕ) : alignDown ptr + ptr % pageSize = ptr :=
  Nat.div_add_mod' ptr pageSize

/-- Rounding down stays above every page-aligned address below. -/
theorem le_alignDown {a ptr : ℕ} (ha : a % pageSize = 0) (h : a ≤ ptr) : a ≤ alignDown ptr := by
  have hmod := Nat.mod_lt ptr (show 0 < pageSize by decide)
  have := alignDown_add_mod ptr
  have := alignDown_add_mod a
  unfold alignDown at *
  have hdiv : a / pageSize ≤ ptr / pageSize := Nat.div_le_div_right h
  have := Nat.mul_le_mul_right pageSize hdiv
  omega

/-! ## Vmas -/

/-- What a vma maps.  A file_vma also holds its file and whether it is shared, which only
the page faults and msync read; the list operations read its offset. -/
inductive VmaKind where
  | anon
  | file (offset : ℕ)
  deriving DecidableEq, Repr

/-- A vma: its identity as an object, _start, _end, _perm and what it maps. -/
structure Vma where
  id : ℕ
  start : ℕ
  stop : ℕ
  perm : ℕ
  kind : VmaKind
  deriving DecidableEq, Repr

/-- The constructors vma::vma and file_vma::file_vma: start rounded down, end rounded up. -/
def newVma (id start stop perm : ℕ) (kind : VmaKind) : Vma :=
  ⟨id, alignDown start, alignUp stop, perm, kind⟩

/-- vma::set. -/
def Vma.set (v : Vma) (start stop : ℕ) : Vma :=
  { v with start := alignDown start, stop := alignUp stop }

/-- file_vma::offset(addr) = _offset + (addr - _start), for a file vma. -/
def Vma.offset (v : Vma) (addr : ℕ) : Option ℕ :=
  match v.kind with
  | .anon => none
  | .file o => some (uadd o (usub addr v.start))

/-- The vma that vma::split and file_vma::split allocate for [edge, _end): a file piece
continues at offset(edge). -/
def Vma.piece (v : Vma) (id edge : ℕ) : Vma :=
  match v.kind with
  | .anon => newVma id edge v.stop v.perm .anon
  | .file o => newVma id edge v.stop v.perm (.file (uadd o (usub edge v.start)))

/-- contains(start, end, y). -/
def contains (start stop : ℕ) (y : Vma) : Bool :=
  decide (start ≤ y.start) && decide (y.stop ≤ stop)

/-- bi::set::insert in the order of vma_compare: an element whose start is already in the
set is not inserted. -/
def insertVma (v : Vma) : List Vma → List Vma
  | [] => [v]
  | x :: xs =>
      if v.start < x.start then v :: x :: xs
      else if v.start = x.start then x :: xs
      else x :: insertVma v xs

/-- ++ on an iterator at the element `i`: the element after it, none for end(). -/
def nextOf (i : ℕ) : List Vma → Option ℕ
  | [] => none
  | x :: xs => if x.id = i then xs.head?.map Vma.id else nextOf i xs

/-- The first element of equal_range(r, addr_compare()): the first vma not wholly before r.
The tree search finds the element the linear one finds on every list that is ordered for
addr_compare, which includes every list the vma list invariant allows. -/
def lowerBound (vs : List Vma) (start : ℕ) : Option ℕ :=
  (vs.find? fun x => ¬ x.stop ≤ start).map Vma.id

/-- The end of equal_range(r, addr_compare()): the first vma wholly after r. -/
def upperBound (vs : List Vma) (stop : ℕ) : Option ℕ :=
  (vs.find? fun x => stop ≤ x.start).map Vma.id

/-- find_hole(start, size): the first gap between two neighbours that fits, either at
start or at the end of the lower neighbour; none where the source aborts. -/
def findHole (start size : ℕ) : List Vma → Option ℕ
  | p :: n :: rest =>
      if p.stop ≤ start ∧ uadd start size ≤ n.start then some start
      else if start ≤ p.stop ∧ size ≤ usub n.start p.stop then some p.stop
      else findHole start size (n :: rest)
  | _ => none

/-! ## The list -/

/-- vma_list, with the identity the next new vma gets. -/
structure VmaList where
  vmas : List Vma
  next : ℕ
  deriving DecidableEq, Repr

/-- The e of vma_list_type(): the end of the allocatable area. -/
def areaEnd : ℕ := 0x800000000000

/-- The marker vma(0, 0, 0). -/
def bottomMarker : Vma := newVma 0 0 0 0 .anon

/-- The marker vma(e, e, 0). -/
def topMarker : Vma := newVma 1 areaEnd areaEnd 0 .anon

namespace VmaList

/-- vma_list_type(): the two markers. -/
def init : VmaList := ⟨insertVma topMarker (insertVma bottomMarker []), 2⟩

/-- The element of identity `i`. -/
def find (l : VmaList) (i : ℕ) : Option Vma := l.vmas.find? (·.id = i)

/-- vma_list.insert(*v). -/
def insert (l : VmaList) (v : Vma) : VmaList := { l with vmas := insertVma v l.vmas }

/-- vma_list.erase of the element of identity `i`. -/
def erase (l : VmaList) (i : ℕ) : VmaList := { l with vmas := l.vmas.filter (·.id ≠ i) }

/-- vma::protect(perm) on the element of identity `i`. -/
def setPerm (l : VmaList) (i perm : ℕ) : VmaList :=
  { l with vmas := l.vmas.map fun x => if x.id = i then { x with perm := perm } else x }

/-- vma::split and file_vma::split of the element `v` at `edge`: the list, and the element
as the split leaves it. -/
def split (l : VmaList) (v : Vma) (edge : ℕ) : VmaList × Vma :=
  if edge ≤ v.start ∨ v.stop ≤ edge then (l, v)
  else
    (⟨insertVma (v.piece l.next edge)
        (l.vmas.map fun x => if x.id = v.id then { x with stop := edge } else x), l.next + 1⟩,
      { v with stop := edge })

/-- i->split(end); i->split(start): the body that evacuate and protect share. -/
def splitAround (l : VmaList) (v : Vma) (start stop : ℕ) : VmaList × Vma :=
  ((l.split v stop).1.split (l.split v stop).2 start)

end VmaList

/-! ## The loops over an equal range -/

/-- for (auto i = first; i != last; ++i) body: the body returns the list, where ++i
continues from and the vmas it deleted; the loop returns the list and all the vmas deleted,
in order.  none where the loop body aborts, where it would step past end(), or where the
fuel ends. -/
def rangeLoop (body : VmaList → Vma → Option (VmaList × Option ℕ × List Vma))
    (last : Option ℕ) : ℕ → VmaList → Option ℕ → Option (VmaList × List Vma)
  | 0, _, _ => none
  | fuel + 1, l, cur =>
      if cur = last then some (l, [])
      else
        match cur with
        | none => none
        | some i =>
            match l.find i with
            | none => none
            | some v =>
                match body l v with
                | none => none
                | some (l', cur', dead) =>
                    (rangeLoop body last fuel l' cur').map fun r => (r.1, dead ++ r.2)

/-- The body of evacuate's loop.  A vma the range contains is erased, after auto& dead =
*i--, so that ++i continues from the element after it; i-- is undefined on the first
element. -/
def evacuateBody (start stop : ℕ) (l : VmaList) (v : Vma) :
    Option (VmaList × Option ℕ × List Vma) :=
  match l.splitAround v start stop with
  | (l, v) =>
      if contains start stop v then
        if l.vmas.head?.map Vma.id = some v.id then none
        else some (l.erase v.id, nextOf v.id l.vmas, [v])
      else some (l, nextOf v.id l.vmas, [])

/-- evacuate(start, end), for the vma list: the list, and the vmas it deletes, which
unpopulate empties of their pages. -/
def evacuate (fuel start stop : ℕ) (l : VmaList) : Option (VmaList × List Vma) :=
  rangeLoop (evacuateBody start stop) (upperBound l.vmas stop) fuel l (lowerBound l.vmas start)

/-- The body of protect's loop: a vma that has the permission already is passed over. -/
def protectBody (start stop perm : ℕ) (l : VmaList) (v : Vma) :
    Option (VmaList × Option ℕ × List Vma) :=
  if v.perm = perm then some (l, nextOf v.id l.vmas, [])
  else
    match l.splitAround v start stop with
    | (l, v) =>
        if contains start stop v then some (l.setPerm v.id perm, nextOf v.id l.vmas, [])
        else some (l, nextOf v.id l.vmas, [])

/-- protect(addr, size, perm), for the vma list; the page-table walk of protection that
follows it decides only the return value. -/
def protectVmas (fuel addr size perm : ℕ) (l : VmaList) : Option VmaList :=
  (rangeLoop (protectBody addr (uadd addr size) perm) (upperBound l.vmas (uadd addr size)) fuel
    l (lowerBound l.vmas addr)).map Prod.fst

/-- The loop of ismapped over the equal range, from the vma `p` on. -/
def ismappedLoop (stop : ℕ) (last : Option ℕ) : List Vma → ℕ → Bool
  | [], _ => false
  | p :: ps, start =>
      if some p.id = last then false
      else if start < p.start then false
      else if stop ≤ p.stop then true
      else ismappedLoop stop last ps p.stop

/-- ismapped(addr, size). -/
def ismapped (l : VmaList) (addr size : ℕ) : Bool :=
  match lowerBound l.vmas addr with
  | none => false
  | some first =>
      ismappedLoop (uadd addr size) (upperBound l.vmas (uadd addr size))
        (l.vmas.dropWhile (·.id ≠ first)) addr

/-! ## Mapping and unmapping -/

/-- mmu::mmap_fixed. -/
def mmapFixed : ℕ := 1

/-- mmu::mmap_populate. -/
def mmapPopulate : ℕ := 2

/-- mmu::perm_write. -/
def permWrite : ℕ := 2

/-- The first address allocate searches from when it is given none. -/
def searchStart : ℕ := 0x200000000000

/-- allocate(v, start, size, search): the list, the address it returns and the vmas its
evacuate deleted.  With search it takes find_hole's hole; without, it evacuates the range;
then it inserts v. -/
def allocate (fuel : ℕ) (l : VmaList) (v : Vma) (start size : ℕ) (search : Bool) :
    Option (VmaList × ℕ × List Vma) :=
  if search then
    match findHole (if start = 0 then searchStart else start) size l.vmas with
    | none => none
    | some h => some (l.insert (v.set h (uadd h size)), h, [])
  else
    match evacuate fuel start (uadd start size) l with
    | none => none
    | some (l', dead) => some (l'.insert v, start, dead)

/-- map_anon(addr, size, flags, perm), for the vma list: populate only fills page tables. -/
def mapAnon (fuel : ℕ) (l : VmaList) (addr size flags perm : ℕ) :
    Option (VmaList × ℕ × List Vma) :=
  allocate fuel { l with next := l.next + 1 }
    (newVma l.next addr (uadd addr (alignUp size)) perm .anon) addr (alignUp size)
    (flags &&& mmapFixed = 0)

/-- map_file(addr, size, search, perm, f, offset, shared), for the vma list: the vma spans
the unaligned size, allocate the aligned one, and a mapping without write permission is
protected after the read. -/
def mapFile (fuel : ℕ) (l : VmaList) (addr size : ℕ) (search : Bool) (perm offset : ℕ) :
    Option (VmaList × ℕ × List Vma) :=
  match allocate fuel { l with next := l.next + 1 }
      (newVma l.next addr (uadd addr size) perm (.file offset)) addr (alignUp size) search with
  | none => none
  | some (l', v, dead) =>
      if perm &&& permWrite = 0 then (protectVmas fuel v (alignUp size) perm l').map (·, v, dead)
      else some (l', v, dead)

/-- unmap(addr, size): the size is aligned, the address is not. -/
def unmap (fuel : ℕ) (l : VmaList) (addr size : ℕ) : Option (VmaList × List Vma) :=
  evacuate fuel addr (uadd addr (alignUp size)) l

/-! ## The libc calls -/

/-- MAP_SHARED, MAP_PRIVATE, MAP_FIXED and MAP_POPULATE. -/
def mapShared : ℕ := 0x01
def mapPrivate : ℕ := 0x02
def mapFixed : ℕ := 0x10
def mapPopulate : ℕ := 0x8000

/-- libc_flags_to_mmap. -/
def libcFlagsToMmap (flags : ℕ) : ℕ :=
  (if flags &&& mapFixed = 0 then 0 else mmapFixed) +
    (if flags &&& mapPopulate = 0 then 0 else mmapPopulate)

/-- libc_prot_to_perm: PROT_READ, PROT_WRITE and PROT_EXEC are perm_read, perm_write and
perm_exec. -/
def libcProtToPerm (prot : ℕ) : ℕ :=
  (if prot &&& 1 = 0 then 0 else 1) + (if prot &&& 2 = 0 then 0 else permWrite) +
    (if prot &&& 4 = 0 then 0 else 4)

/-- The calls of libc/mman.cc that change the vma list.  An address is a word; a negative
long is one of at least 2^63. -/
inductive MmanCall where
  | mmap (addr length prot flags : ℕ) (fd : Int) (offset : ℕ)
  | munmap (addr length : ℕ)
  | mprotect (addr len prot : ℕ)
  deriving DecidableEq, Repr

/-- The effect of a call on the vma list, with fuel for the loops; none where the call
aborts.  munmap's msync only writes file contents back. -/
def mman (fuel : ℕ) (l : VmaList) : MmanCall → Option VmaList
  | .mmap addr length prot flags fd offset =>
      if flags &&& (mapShared ||| mapPrivate) = 0 then some l
      else if 2 ^ 63 ≤ addr then none
      else if fd = -1 then
        (mapAnon fuel l addr length (libcFlagsToMmap flags) (libcProtToPerm prot)).map Prod.fst
      else
        (mapFile fuel l addr length (flags &&& mapFixed = 0) (libcProtToPerm prot) offset).map
          Prod.fst
  | .munmap addr length => (unmap fuel l addr length).map Prod.fst
  | .mprotect addr len prot =>
      if 2 ^ 63 ≤ addr then none
      else if addr % 4096 ≠ 0 ∨ len % 4096 ≠ 0 then some l
      else if !ismapped l addr len then some l
      else protectVmas fuel addr len (libcProtToPerm prot) l

/-- Any sequence of the calls from vma_list_type(); a call's loops run to their end. -/
def vmaSystem : System VmaList MmanCall where
  init l := l = VmaList.init
  step l c l' := ∃ fuel, mman fuel l c = some l'

/-! ## The set's order and the identities -/

theorem insertVma_cons (v x : Vma) (xs : List Vma) :
    insertVma v (x :: xs) =
      if v.start < x.start then v :: x :: xs
      else if v.start = x.start then x :: xs
      else x :: insertVma v xs := rfl

theorem insertVma_eq_or_perm (v : Vma) (vs : List Vma) :
    insertVma v vs = vs ∨ (insertVma v vs).Perm (v :: vs) := by
  induction vs with
  | nil => exact .inr (List.Perm.refl _)
  | cons x xs ih =>
      simp only [insertVma_cons]
      split_ifs with hlt heq
      · exact .inr (List.Perm.refl _)
      · exact .inl rfl
      · rcases ih with h | h
        · exact .inl (by rw [h])
        · exact .inr ((h.cons x).trans (List.Perm.swap v x xs))

theorem mem_insertVma {v x : Vma} {vs : List Vma} (h : x ∈ insertVma v vs) : x = v ∨ x ∈ vs := by
  rcases insertVma_eq_or_perm v vs with he | hp
  · exact .inr (he ▸ h)
  · exact List.mem_cons.1 (hp.mem_iff.1 h)

/-- Insertion keeps the set's order. -/
theorem insertVma_sorted (v : Vma) {vs : List Vma} (h : vs.Pairwise fun a b => a.start < b.start) :
    (insertVma v vs).Pairwise fun a b => a.start < b.start := by
  induction vs with
  | nil => exact List.pairwise_singleton _ v
  | cons x xs ih =>
      have hx := List.pairwise_cons.1 h
      simp only [insertVma_cons]
      split_ifs with hlt heq
      · refine List.pairwise_cons.2 ⟨fun b hb => ?_, h⟩
        rcases List.mem_cons.1 hb with rfl | hb
        · exact hlt
        · exact Nat.lt_trans hlt (hx.1 b hb)
      · exact h
      · refine List.pairwise_cons.2 ⟨fun b hb => ?_, ih hx.2⟩
        rcases mem_insertVma hb with rfl | hb
        · omega
        · exact hx.1 b hb

theorem insertVma_distinct {v : Vma} {vs : List Vma} (h : vs.Pairwise fun a b => a.id ≠ b.id)
    (hv : ∀ x ∈ vs, x.id ≠ v.id) : (insertVma v vs).Pairwise fun a b => a.id ≠ b.id := by
  rcases insertVma_eq_or_perm v vs with he | hp
  · rwa [he]
  · exact (List.Perm.pairwise_iff (fun hab => Ne.symm hab) hp).2
      (List.pairwise_cons.2 ⟨fun x hx => (hv x hx).symm, h⟩)

@[simp] theorem Vma.piece_id (v : Vma) (id edge : ℕ) : (v.piece id edge).id = id := by
  unfold Vma.piece
  split <;> rfl

/-- What every reachable vma list satisfies: the order of the set, with no start twice, and
identities that are below `next` and pairwise distinct. -/
structure Inv (l : VmaList) : Prop where
  sorted : l.vmas.Pairwise fun a b => a.start < b.start
  fresh : ∀ v ∈ l.vmas, v.id < l.next
  distinct : l.vmas.Pairwise fun a b => a.id ≠ b.id

/-- `l'` took its identities below `l.next` from `l`, and any others are new. -/
structure Grows (l l' : VmaList) : Prop where
  next_le : l.next ≤ l'.next
  old : ∀ x ∈ l'.vmas, x.id < l.next → ∃ y ∈ l.vmas, y.id = x.id

theorem Grows.refl (l : VmaList) : Grows l l := ⟨Nat.le_refl _, fun x hx _ => ⟨x, hx, rfl⟩⟩

theorem Grows.trans {l₁ l₂ l₃ : VmaList} (h₁ : Grows l₁ l₂) (h₂ : Grows l₂ l₃) : Grows l₁ l₃ where
  next_le := Nat.le_trans h₁.next_le h₂.next_le
  old x hx hlt := by
    obtain ⟨y, hy, hyx⟩ := h₂.old x hx (Nat.lt_of_lt_of_le hlt h₁.next_le)
    obtain ⟨z, hz, hzy⟩ := h₁.old y hy (hyx ▸ hlt)
    exact ⟨z, hz, hzy.trans hyx⟩

theorem inv_init : Inv VmaList.init := ⟨by decide, by decide, by decide⟩

/-- A change of the fields other than the start and the identity keeps the invariant. -/
theorem Inv.map {l : VmaList} (h : Inv l) {f : Vma → Vma} (hs : ∀ x, (f x).start = x.start)
    (hi : ∀ x, (f x).id = x.id) : Inv ⟨l.vmas.map f, l.next⟩ ∧ Grows l ⟨l.vmas.map f, l.next⟩ := by
  refine ⟨⟨?_, ?_, ?_⟩, Nat.le_refl _, ?_⟩
  · exact List.pairwise_map.2 (h.sorted.imp fun {a b} hab => by rw [hs, hs]; exact hab)
  · intro x hx
    obtain ⟨y, hy, rfl⟩ := List.mem_map.1 hx
    rw [hi]
    exact h.fresh y hy
  · exact List.pairwise_map.2 (h.distinct.imp fun {a b} hab => by rw [hi, hi]; exact hab)
  · intro x hx _
    obtain ⟨y, hy, rfl⟩ := List.mem_map.1 hx
    exact ⟨y, hy, (hi y).symm⟩

theorem Inv.erase {l : VmaList} (h : Inv l) (i : ℕ) : Inv (l.erase i) ∧ Grows l (l.erase i) :=
  ⟨⟨h.sorted.filter _, fun x hx => h.fresh x (List.mem_of_mem_filter hx), h.distinct.filter _⟩,
    Nat.le_refl _, fun x hx _ => ⟨x, List.mem_of_mem_filter hx, rfl⟩⟩

theorem Inv.setPerm {l : VmaList} (h : Inv l) (i perm : ℕ) :
    Inv (l.setPerm i perm) ∧ Grows l (l.setPerm i perm) :=
  h.map (by intro x; split_ifs <;> rfl) (by intro x; split_ifs <;> rfl)

/-- Inserting a vma whose identity is in use by none of the list. -/
theorem Inv.insert {l : VmaList} (h : Inv l) {v : Vma} (hv : v.id < l.next)
    (hnew : ∀ x ∈ l.vmas, x.id ≠ v.id) : Inv (l.insert v) where
  sorted := insertVma_sorted v h.sorted
  fresh x hx := by
    rcases mem_insertVma hx with rfl | hx
    · exact hv
    · exact h.fresh x hx
  distinct := insertVma_distinct h.distinct hnew

/-- Inserting a new vma, whose identity is `next`. -/
theorem Inv.insertNew {l : VmaList} (h : Inv l) {v : Vma} (hv : v.id = l.next) :
    Inv ⟨insertVma v l.vmas, l.next + 1⟩ ∧ Grows l ⟨insertVma v l.vmas, l.next + 1⟩ := by
  have hbump : Inv ⟨l.vmas, l.next + 1⟩ :=
    ⟨h.sorted, fun x hx => Nat.lt_succ_of_lt (h.fresh x hx), h.distinct⟩
  refine ⟨hbump.insert (by simp [hv]) fun x hx => ?_, Nat.le_succ _, fun x hx hlt => ?_⟩
  · exact hv ▸ Nat.ne_of_lt (h.fresh x hx)
  · rcases mem_insertVma hx with rfl | hx
    · exact absurd hlt (by omega)
    · exact ⟨x, hx, rfl⟩

theorem Inv.split {l : VmaList} (h : Inv l) (v : Vma) (edge : ℕ) :
    Inv (l.split v edge).1 ∧ Grows l (l.split v edge).1 := by
  unfold VmaList.split
  split_ifs
  · exact ⟨h, Grows.refl l⟩
  · obtain ⟨hm, gm⟩ := h.map (f := fun x => if x.id = v.id then { x with stop := edge } else x)
      (by intro x; split_ifs <;> rfl) (by intro x; split_ifs <;> rfl)
    obtain ⟨hi, gi⟩ := hm.insertNew (v := v.piece l.next edge) (Vma.piece_id v _ _)
    exact ⟨hi, gm.trans gi⟩

theorem Inv.splitAround {l : VmaList} (h : Inv l) (v : Vma) (start stop : ℕ) :
    Inv (l.splitAround v start stop).1 ∧ Grows l (l.splitAround v start stop).1 := by
  obtain ⟨h₁, g₁⟩ := h.split v stop
  obtain ⟨h₂, g₂⟩ := h₁.split (l.split v stop).2 start
  exact ⟨h₂, g₁.trans g₂⟩

/-- The loop keeps what each visit keeps.  The induction is on the fuel, one visit a step. -/
theorem rangeLoop_inv {body : VmaList → Vma → Option (VmaList × Option ℕ × List Vma)}
    {last : Option ℕ}
    (hbody : ∀ l v l' c dead, Inv l → body l v = some (l', c, dead) → Inv l' ∧ Grows l l') :
    ∀ fuel l cur l' dead, Inv l → rangeLoop body last fuel l cur = some (l', dead) →
      Inv l' ∧ Grows l l' := by
  intro fuel
  induction fuel with
  | zero => intro l cur l' dead _ h; simp [rangeLoop] at h
  | succ fuel ih =>
      intro l cur l' dead hl h
      simp only [rangeLoop] at h
      split_ifs at h
      · cases h
        exact ⟨hl, Grows.refl l⟩
      · split at h
        · cases h
        · split at h
          · cases h
          · split at h
            · cases h
            · rename_i l₁ c₁ dead₁ hb
              obtain ⟨⟨l₂, dead₂⟩, hrest, he⟩ := Option.map_eq_some_iff.1 h
              cases he
              obtain ⟨h₁, g₁⟩ := hbody _ _ _ _ _ hl hb
              obtain ⟨h₂, g₂⟩ := ih l₁ c₁ l₂ dead₂ h₁ hrest
              exact ⟨h₂, g₁.trans g₂⟩

theorem Inv.evacuateBody {start stop : ℕ} {l l' : VmaList} {v : Vma} {c : Option ℕ}
    {dead : List Vma} (h : Inv l) (hb : Osv.Mmu.evacuateBody start stop l v = some (l', c, dead)) :
    Inv l' ∧ Grows l l' := by
  obtain ⟨h₁, g₁⟩ := h.splitAround v start stop
  unfold Osv.Mmu.evacuateBody at hb
  rcases hs : l.splitAround v start stop with ⟨l₁, v₁⟩
  rw [hs] at hb h₁ g₁
  dsimp only at hb h₁ g₁
  split_ifs at hb
  · cases hb
    obtain ⟨h₂, g₂⟩ := h₁.erase v₁.id
    exact ⟨h₂, g₁.trans g₂⟩
  · cases hb
    exact ⟨h₁, g₁⟩

theorem Inv.protectBody {start stop perm : ℕ} {l l' : VmaList} {v : Vma} {c : Option ℕ}
    {dead : List Vma} (h : Inv l)
    (hb : Osv.Mmu.protectBody start stop perm l v = some (l', c, dead)) :
    Inv l' ∧ Grows l l' := by
  obtain ⟨h₁, g₁⟩ := h.splitAround v start stop
  unfold Osv.Mmu.protectBody at hb
  rcases hs : l.splitAround v start stop with ⟨l₁, v₁⟩
  rw [hs] at hb h₁ g₁
  dsimp only at hb h₁ g₁
  split_ifs at hb
  · cases hb
    exact ⟨h, Grows.refl l⟩
  · cases hb
    obtain ⟨h₂, g₂⟩ := h₁.setPerm v₁.id perm
    exact ⟨h₂, g₁.trans g₂⟩
  · cases hb
    exact ⟨h₁, g₁⟩

theorem Inv.evacuate {fuel start stop : ℕ} {l l' : VmaList} {dead : List Vma} (h : Inv l)
    (he : Osv.Mmu.evacuate fuel start stop l = some (l', dead)) : Inv l' ∧ Grows l l' :=
  rangeLoop_inv (fun _ _ _ _ _ hl hb => hl.evacuateBody hb) fuel l _ l' dead h he

theorem Inv.protectVmas {fuel addr size perm : ℕ} {l l' : VmaList} (h : Inv l)
    (hp : Osv.Mmu.protectVmas fuel addr size perm l = some l') : Inv l' := by
  obtain ⟨⟨l₁, dead⟩, hl, rfl⟩ := Option.map_eq_some_iff.1 hp
  exact (rangeLoop_inv (fun _ _ _ _ _ hl hb => hl.protectBody hb) fuel l _ l₁ dead h hl).1

/-- allocate inserts its vma, whose identity the list does not use, after evacuate. -/
theorem Inv.allocate {fuel start size r : ℕ} {search : Bool} {l l' : VmaList} {v : Vma}
    {dead : List Vma} (h : Inv l) (hv : v.id < l.next) (hnew : ∀ x ∈ l.vmas, x.id ≠ v.id)
    (ha : Osv.Mmu.allocate fuel l v start size search = some (l', r, dead)) : Inv l' := by
  unfold Osv.Mmu.allocate at ha
  cases search with
  | true =>
      rw [if_pos rfl] at ha
      cases hf : findHole (if start = 0 then searchStart else start) size l.vmas with
      | none => rw [hf] at ha; cases ha
      | some hole =>
          rw [hf] at ha
          cases ha
          exact h.insert hv hnew
  | false =>
      rw [if_neg Bool.false_ne_true] at ha
      cases he : Osv.Mmu.evacuate fuel start (uadd start size) l with
      | none => rw [he] at ha; cases ha
      | some res =>
          rw [he] at ha
          cases ha
          obtain ⟨h₁, g₁⟩ := h.evacuate he
          refine h₁.insert (Nat.lt_of_lt_of_le hv g₁.next_le) fun x hx hxv => ?_
          obtain ⟨y, hy, hyx⟩ := g₁.old x hx (hxv ▸ hv)
          exact hnew y hy (hyx.trans hxv)

/-- A new vma takes the identity `next`, which no vma of the list has. -/
theorem Inv.allocateNew {fuel addr size r : ℕ} {search : Bool} {l l' : VmaList} {v : Vma}
    {dead : List Vma} (h : Inv l) (hv : v.id = l.next)
    (ha : Osv.Mmu.allocate fuel { l with next := l.next + 1 } v addr size search =
      some (l', r, dead)) : Inv l' := by
  have h₁ : Inv { l with next := l.next + 1 } :=
    ⟨h.sorted, fun x hx => Nat.lt_succ_of_lt (h.fresh x hx), h.distinct⟩
  exact h₁.allocate (by simp [hv]) (fun x hx => hv ▸ Nat.ne_of_lt (h.fresh x hx)) ha

theorem Inv.mapAnon {fuel addr size flags perm r : ℕ} {l l' : VmaList} {dead : List Vma}
    (h : Inv l) (hm : Osv.Mmu.mapAnon fuel l addr size flags perm = some (l', r, dead)) :
    Inv l' :=
  h.allocateNew rfl hm

theorem Inv.mapFile {fuel addr size perm offset r : ℕ} {search : Bool} {l l' : VmaList}
    {dead : List Vma} (h : Inv l)
    (hm : Osv.Mmu.mapFile fuel l addr size search perm offset = some (l', r, dead)) :
    Inv l' := by
  unfold Osv.Mmu.mapFile at hm
  split at hm
  · cases hm
  · rename_i l₁ v dead₁ ha
    have h₁ := h.allocateNew rfl ha
    split_ifs at hm
    · obtain ⟨l₂, hp, he⟩ := Option.map_eq_some_iff.1 hm
      cases he
      exact h₁.protectVmas hp
    · cases hm
      exact h₁

/-- Every call keeps the invariant. -/
theorem Inv.mman {fuel : ℕ} {l l' : VmaList} {c : MmanCall} (h : Inv l)
    (hc : mman fuel l c = some l') : Inv l' := by
  cases c with
  | mmap addr length prot flags fd offset =>
      simp only [Osv.Mmu.mman] at hc
      split_ifs at hc
      · cases hc
        exact h
      · obtain ⟨⟨l₁, r, dead⟩, hm, rfl⟩ := Option.map_eq_some_iff.1 hc
        exact h.mapAnon hm
      · obtain ⟨⟨l₁, r, dead⟩, hm, rfl⟩ := Option.map_eq_some_iff.1 hc
        exact h.mapFile hm
  | munmap addr length =>
      obtain ⟨⟨l₁, dead⟩, he, rfl⟩ := Option.map_eq_some_iff.1 hc
      exact (h.evacuate he).1
  | mprotect addr len prot =>
      simp only [Osv.Mmu.mman] at hc
      split_ifs at hc
      · cases hc
        exact h
      · cases hc
        exact h
      · exact h.protectVmas hc

/-- **The set's order survives.**  In every reachable state the vma list is ordered by
start with no start twice, and its vmas are distinct objects with identities below `next`. -/
theorem inv_reachable {l : VmaList} (hl : Reachable vmaSystem l) : Inv l :=
  Inductive.reachable (S := vmaSystem)
    ⟨fun _ hinit => hinit ▸ inv_init, fun _ _ _ h ⟨_, hc⟩ => h.mman hc⟩ hl

/-! ## The representation invariant and find_hole -/

/-- The vma list invariant: vmas in order and pairwise disjoint, each non-empty or a marker,
page aligned, between the two markers. -/
structure WellFormed (vs : List Vma) : Prop where
  disjoint : vs.Pairwise fun a b => a.stop ≤ b.start
  nonempty : ∀ v ∈ vs, v.start < v.stop ∨ v = bottomMarker ∨ v = topMarker
  aligned : ∀ v ∈ vs, v.start % pageSize = 0 ∧ v.stop % pageSize = 0
  bracketed : vs.head? = some bottomMarker ∧ vs.getLast? = some topMarker

theorem WellFormed.start_le_stop {vs : List Vma} (h : WellFormed vs) {v : Vma} (hv : v ∈ vs) :
    v.start ≤ v.stop := by
  rcases h.nonempty v hv with hlt | rfl | rfl
  · exact Nat.le_of_lt hlt
  · decide
  · decide

/-- Every vma ends by the top marker, the last of the list. -/
theorem WellFormed.stop_le_areaEnd {vs : List Vma} (h : WellFormed vs) {v : Vma} (hv : v ∈ vs) :
    v.stop ≤ areaEnd := by
  obtain ⟨ys, rfl⟩ := List.getLast?_eq_some_iff.1 h.bracketed.2
  rcases List.mem_append.1 hv with hv | hv
  · have hdis := (List.pairwise_append.1 h.disjoint).2.2 v hv topMarker (List.mem_singleton_self _)
    exact Nat.le_trans hdis (by decide)
  · rw [List.mem_singleton.1 hv]
    decide

/-- find_hole returns a point between two neighbours, at or after the end of the lower one
and with room for `size` before the upper one.  The gap of the second test is computed in
uintptr_t: that it is the gap needs the neighbours in order. -/
theorem findHole_between {start size hole : ℕ} {vs : List Vma}
    (hdis : vs.Pairwise fun a b => a.stop ≤ b.start) (hw : ∀ v ∈ vs, v.start < wordSize)
    (hsize : start + size < wordSize) (hf : findHole start size vs = some hole) :
    ∃ pre p n post, vs = pre ++ p :: n :: post ∧ p.stop ≤ hole ∧ hole + size ≤ n.start := by
  induction vs with
  | nil => simp [findHole] at hf
  | cons p ps ih =>
      cases ps with
      | nil => simp [findHole] at hf
      | cons n rest =>
          have hpn : p.stop ≤ n.start :=
            (List.pairwise_cons.1 hdis).1 n (List.mem_cons_self ..)
          simp only [findHole] at hf
          split_ifs at hf with h₁ h₂
          · cases hf
            rw [uadd_of_lt hsize] at h₁
            exact ⟨[], p, n, rest, rfl, h₁.1, h₁.2⟩
          · cases hf
            have hn := hw n (by simp)
            rw [usub_of_le hn hpn] at h₂
            exact ⟨[], p, n, rest, rfl, Nat.le_refl _, by omega⟩
          · obtain ⟨pre, p', n', post, hvs, hp', hn'⟩ :=
              ih (List.pairwise_cons.1 hdis).2 (fun v hv => hw v (List.mem_cons_of_mem _ hv)) hf
            exact ⟨p :: pre, p', n', post, by rw [hvs]; rfl, hp', hn'⟩

/-- **find_hole finds a hole.**  On a well-formed list, the range find_hole returns overlaps
no vma, provided the request does not wrap around the address space. -/
theorem findHole_disjoint {start size hole : ℕ} {vs : List Vma} (h : WellFormed vs)
    (hsize : start + size < wordSize) (hf : findHole start size vs = some hole) :
    ∀ w ∈ vs, hole + size ≤ w.start ∨ w.stop ≤ hole := by
  have hw : ∀ v ∈ vs, v.start < wordSize := fun v hv =>
    Nat.lt_of_le_of_lt (Nat.le_trans (h.start_le_stop hv) (h.stop_le_areaEnd hv)) (by decide)
  obtain ⟨pre, p, n, post, rfl, hp, hn⟩ := findHole_between h.disjoint hw hsize hf
  have hdis := h.disjoint
  simp only [List.pairwise_append, List.pairwise_cons, List.mem_cons] at hdis
  intro w hw
  rcases List.mem_append.1 hw with hw | hw
  · -- a vma before p ends before p starts
    have := hdis.2.2 w hw p (.inl rfl)
    have := h.start_le_stop (v := p) (by simp)
    exact .inr (by omega)
  · rcases List.mem_cons.1 hw with rfl | hw
    · exact .inr hp
    · rcases List.mem_cons.1 hw with rfl | hw
      · exact .inl hn
      · -- a vma after n starts after n ends
        have := hdis.2.1.2.1 w hw
        have := h.start_le_stop (v := n) (by simp)
        exact .inl (by omega)

/-- **allocate without mmap_fixed returns a hole**, on a well-formed list: the range it
returns overlaps none of the vmas there were. -/
theorem allocate_search_disjoint {fuel start size r : ℕ} {l l' : VmaList} {v : Vma}
    {dead : List Vma} (h : WellFormed l.vmas)
    (hsize : (if start = 0 then searchStart else start) + size < wordSize)
    (ha : allocate fuel l v start size true = some (l', r, dead)) :
    ∀ w ∈ l.vmas, r + size ≤ w.start ∨ w.stop ≤ r := by
  unfold allocate at ha
  rw [if_pos rfl] at ha
  cases hf : findHole (if start = 0 then searchStart else start) size l.vmas with
  | none => rw [hf] at ha; cases ha
  | some hole =>
      rw [hf] at ha
      cases ha
      exact findHole_disjoint h hsize hf

/-! ## ismapped -/

/-- Every address of [a, b) lies in a vma of `vs`. -/
def Covers (vs : List Vma) (a b : ℕ) : Prop :=
  ∀ x, a ≤ x → x < b → ∃ v ∈ vs, v.start ≤ x ∧ x < v.stop

/-- Two vmas of a list with one vma to an identity are the same when their identities are. -/
theorem eq_of_id_eq {vs : List Vma} (hd : vs.Pairwise fun a b => a.id ≠ b.id) {p q : Vma}
    (hp : p ∈ vs) (hq : q ∈ vs) (h : p.id = q.id) : p = q :=
  List.inj_on_of_nodup_map (List.pairwise_map.mpr hd) hp hq h

/-- The end of equal_range is a vma that starts at or after the range's end. -/
theorem upperBound_spec {vs : List Vma} {stop i : ℕ} (h : upperBound vs stop = some i) :
    ∃ q ∈ vs, q.id = i ∧ stop ≤ q.start := by
  obtain ⟨q, hq, rfl⟩ := Option.map_eq_some_iff.mp h
  exact ⟨q, List.mem_of_find?_eq_some hq, rfl, by simpa using List.find?_some hq⟩

/-- Vmas that end by `a` cover nothing from `a` on. -/
theorem covers_append_of_before {pre rest : List Vma} {a b : ℕ} (hpre : ∀ u ∈ pre, u.stop ≤ a) :
    Covers (pre ++ rest) a b ↔ Covers rest a b := by
  constructor
  · intro hc x hx hxb
    obtain ⟨v, hv, hvs, hvx⟩ := hc x hx hxb
    rcases List.mem_append.mp hv with hv | hv
    · have := hpre v hv
      omega
    · exact ⟨v, hv, hvs, hvx⟩
  · intro hc x hx hxb
    obtain ⟨v, hv, hv'⟩ := hc x hx hxb
    exact ⟨v, List.mem_append_right _ hv, hv'⟩

/-- A vma that starts above `start`, first of a list in order, leaves `start` uncovered. -/
theorem not_covers_of_gap {p : Vma} {ps : List Vma} {start stop : ℕ}
    (hdis : (p :: ps).Pairwise fun a b => a.stop ≤ b.start) (hp : p.start ≤ p.stop)
    (hlt : start < stop) (hgap : start < p.start) : ¬ Covers (p :: ps) start stop := by
  intro hc
  obtain ⟨v, hv, hvs, -⟩ := hc start (Nat.le_refl _) hlt
  rcases List.mem_cons.mp hv with rfl | hv
  · omega
  · have := (List.pairwise_cons.mp hdis).1 v hv
    omega

/-- **The loop of ismapped decides coverage** of [start, stop) by the vmas from `p` on, on a
list in order whose vmas end where or after they start and at or after `start`, when the end
of the equal range is a vma that starts at or after `stop`.  The induction follows the loop:
`start` moves to the end of each vma that holds it. -/
theorem ismappedLoop_iff {stop : ℕ} {last : Option ℕ} : ∀ {ps : List Vma} {start : ℕ},
    ps.Pairwise (fun a b => a.stop ≤ b.start) → (∀ v ∈ ps, v.start ≤ v.stop) →
    (∀ v ∈ ps, start ≤ v.stop) → start < stop →
    (∀ p ∈ ps, some p.id = last → stop ≤ p.start) →
    (ismappedLoop stop last ps start = true ↔ Covers ps start stop)
  | [], start, _, _, _, hlt, _ => by
      simp only [ismappedLoop, Bool.false_eq_true, false_iff]
      intro hc
      obtain ⟨v, hv, -⟩ := hc start (Nat.le_refl _) hlt
      exact List.not_mem_nil hv
  | p :: ps, start, hdis, hle, hstart, hlt, hlast => by
      have hp := hle p List.mem_cons_self
      have hsp := hstart p List.mem_cons_self
      have hafter := (List.pairwise_cons.mp hdis).1
      unfold ismappedLoop
      split_ifs with hid hgap hend
      · -- the end of the equal range starts at or after `stop`, above `start`
        simp only [false_iff]
        exact not_covers_of_gap hdis hp hlt
          (Nat.lt_of_lt_of_le hlt (hlast p List.mem_cons_self hid))
      · simp only [false_iff]
        exact not_covers_of_gap hdis hp hlt hgap
      · simp only [true_iff]
        intro x hx hxs
        exact ⟨p, List.mem_cons_self, by omega, by omega⟩
      · -- [start, p.stop) lies in p; the rest must be covered from p.stop on
        rw [ismappedLoop_iff (List.pairwise_cons.mp hdis).2
          (fun v hv => hle v (List.mem_cons_of_mem p hv))
          (fun v hv => Nat.le_trans (hafter v hv) (hle v (List.mem_cons_of_mem p hv))) (by omega)
          (fun q hq => hlast q (List.mem_cons_of_mem p hq))]
        constructor
        · intro hc x hx hxs
          by_cases hxp : x < p.stop
          · exact ⟨p, List.mem_cons_self, by omega, hxp⟩
          · obtain ⟨v, hv, hv'⟩ := hc x (by omega) hxs
            exact ⟨v, List.mem_cons_of_mem p hv, hv'⟩
        · intro hc x hx hxs
          obtain ⟨v, hv, hvs, hvx⟩ := hc x (by omega) hxs
          rcases List.mem_cons.mp hv with rfl | hv
          · omega
          · exact ⟨v, hv, hvs, hvx⟩

/-- **ismapped is exact.**  On a list that keeps the vma list invariant, with one vma to an
identity, ismapped(addr, size) of a non-empty range that does not wrap says whether every
byte of the range lies in a vma. -/
theorem ismapped_iff_covers {l : VmaList} {addr size : ℕ} (hw : WellFormed l.vmas)
    (hd : l.vmas.Pairwise fun a b => a.id ≠ b.id) (hsize : 0 < size)
    (hover : addr + size < wordSize) :
    ismapped l addr size = true ↔ Covers l.vmas addr (addr + size) := by
  have hlt : addr < addr + size := by omega
  unfold ismapped
  rw [uadd_of_lt hover]
  cases hlb : lowerBound l.vmas addr with
  | none =>
      -- every vma ends by addr, so addr itself is not mapped
      simp only [lowerBound, Option.map_eq_none_iff, List.find?_eq_none, decide_eq_true_eq,
        not_not] at hlb
      simp only [Bool.false_eq_true, false_iff]
      intro hc
      obtain ⟨v, hv, -, hvx⟩ := hc addr (Nat.le_refl _) hlt
      have := hlb v hv
      omega
  | some first =>
      dsimp only
      obtain ⟨v, hfind, rfl⟩ := Option.map_eq_some_iff.mp hlb
      obtain ⟨hv, pre, rest, hvs, hpre⟩ := List.find?_eq_some_iff_append.mp hfind
      have hv' : addr < v.stop := by simpa using hv
      have hpre' : ∀ u ∈ pre, u.stop ≤ addr := fun u hu => by simpa using hpre u hu
      have hdis := hw.disjoint
      rw [hvs] at hd hdis
      have hne : ∀ u ∈ pre, u.id ≠ v.id :=
        fun u hu => (List.pairwise_append.mp hd).2.2 u hu v List.mem_cons_self
      -- ismapped starts from the first vma that ends after addr
      have hdrop : l.vmas.dropWhile (fun x => x.id ≠ v.id) = v :: rest := by
        rw [hvs, List.dropWhile_append, List.dropWhile_eq_nil_iff.mpr (by simpa using hne)]
        simp
      have hrest := (List.pairwise_append.mp hdis).2.1
      have hle : ∀ u ∈ v :: rest, u.start ≤ u.stop :=
        fun u hu => hw.start_le_stop (hvs ▸ List.mem_append_right pre hu)
      -- the vmas after the first end after it, so after addr
      have hends : ∀ u ∈ v :: rest, addr ≤ u.stop := by
        intro u hu
        rcases List.mem_cons.mp hu with rfl | hu
        · exact Nat.le_of_lt hv'
        · have := (List.pairwise_cons.mp hrest).1 u hu
          have := hle u (List.mem_cons_of_mem v hu)
          omega
      rw [hdrop, ismappedLoop_iff hrest hle hends hlt, hvs, covers_append_of_before hpre']
      intro p hp hlast
      obtain ⟨q, hq, hqp, hstart⟩ := upperBound_spec hlast.symm
      have hpq : p = q := eq_of_id_eq (hvs ▸ hd) (hvs ▸ List.mem_append_right pre hp) hq hqp.symm
      exact hpq ▸ hstart

/-- Two adjacent vmas, `[0x1000, 0x3000)` between them, and one more after a gap,
`[0x5000, 0x6000)`, between the markers. -/
def VmaList.threeVmas : VmaList :=
  ((VmaList.init.insert (newVma 2 0x1000 0x2000 3 .anon)).insert (newVma 3 0x2000 0x3000 3 .anon)).insert
    (newVma 4 0x5000 0x6000 3 .anon)

theorem wellFormed_threeVmas : WellFormed VmaList.threeVmas.vmas :=
  ⟨by decide, by decide, by decide, by decide⟩

/-- A range across the two adjacent vmas is mapped; one that runs from the second into the gap
is not. -/
theorem ismapped_threeVmas_iff :
    WellFormed VmaList.threeVmas.vmas ∧ VmaList.threeVmas.vmas.Pairwise (fun a b => a.id ≠ b.id) ∧
      ismapped VmaList.threeVmas 0x1800 0x1000 = true ∧ Covers VmaList.threeVmas.vmas 0x1800 0x2800 ∧
      ismapped VmaList.threeVmas 0x2800 0x1000 = false ∧
      ¬ Covers VmaList.threeVmas.vmas 0x2800 0x3800 :=
  have hw := wellFormed_threeVmas
  have hd : VmaList.threeVmas.vmas.Pairwise (fun a b => a.id ≠ b.id) := by decide
  ⟨hw, hd, by decide,
    (@ismapped_iff_covers _ 0x1800 0x1000 hw hd (by decide) (by decide)).mp (by decide), by decide,
    fun hc => absurd ((@ismapped_iff_covers _ 0x2800 0x1000 hw hd (by decide) (by decide)).mpr hc)
      (by decide)⟩

/-- Eight KiB asked for from `0x1000`, as map_anon without `MAP_FIXED` asks: the two adjacent
vmas are passed over, and allocate returns `0x3000`, the hole before the third vma, which it
fills exactly. -/
theorem allocate_search_disjoint_threeVmas :
    (if 0x1000 = 0 then searchStart else 0x1000) + 0x2000 < wordSize ∧
      (allocate 0 VmaList.threeVmas (newVma 5 0x1000 0x3000 3 .anon) 0x1000 0x2000 true).map
        (fun r => r.2) = some (0x3000, []) ∧
      ∀ w ∈ VmaList.threeVmas.vmas, 0x3000 + 0x2000 ≤ w.start ∨ w.stop ≤ 0x3000 :=
  ⟨by decide, by decide,
    @allocate_search_disjoint 0 0x1000 0x2000 0x3000 VmaList.threeVmas _ (newVma 5 0x1000 0x3000 3 .anon)
      [] wellFormed_threeVmas (by decide) rfl⟩

/-! ## The offsets of a split file vma -/

/-- **A split piece keeps the file offsets only at a page-aligned edge.**  The piece that
file_vma::split allocates at `edge` starts at the page of `edge` but continues the file at
offset(edge); each of its addresses maps to the offset the original vma gave it plus the
distance of `edge` from its page. -/
theorem offset_piece {v : Vma} {o : ℕ} (hk : v.kind = .file o) (id edge x : ℕ)
    (hs : v.start % pageSize = 0) (hedge : v.start < edge) (hew : edge < wordSize)
    (hx : (v.piece id edge).start ≤ x) (hxw : x < wordSize) :
    (v.piece id edge).offset x = (v.offset x).map fun off => uadd off (edge % pageSize) := by
  have hpiece : v.piece id edge =
      newVma id edge v.stop v.perm (.file (uadd o (usub edge v.start))) := by
    simp [Vma.piece, hk]
  rw [hpiece] at hx ⊢
  have hdown : v.start ≤ alignDown edge := le_alignDown hs (Nat.le_of_lt hedge)
  have hmod := alignDown_add_mod edge
  change alignDown edge ≤ x at hx
  simp only [Vma.offset, hk, newVma, Option.map_some]
  rw [usub_of_le hew (Nat.le_of_lt hedge), usub_of_le hxw hx,
    usub_of_le hxw (Nat.le_trans hdown hx)]
  unfold uadd
  rw [Nat.mod_add_mod, Nat.mod_add_mod]
  congr 2
  omega

/-! ## Unaligned and unbounded munmap -/

/-- A run of calls, each with the fuel its loops need, ends in a reachable state. -/
theorem reachable_of_run {fuel : ℕ} {cs : List MmanCall} {l : VmaList}
    (h : runFrom (mman fuel) VmaList.init cs = some l) : Reachable vmaSystem l :=
  Reachable.mono (S := System.ofFun (· = VmaList.init) (mman fuel)) (T := vmaSystem)
    (fun _ h => h) (fun _ _ _ h => ⟨fuel, h⟩) (reachable_of_runFrom (.init rfl) h)

/-- mmap(NULL, 3 pages) of a file from offset 0, mmap(NULL, 1 page) anonymous, which goes
right above it, and munmap of half a page in the middle page of the file mapping. -/
def unalignedUnmapRun : List MmanCall :=
  [.mmap 0 0x3000 3 mapPrivate 3 0, .mmap 0 0x1000 3 (mapPrivate ||| 0x20) (-1) 0,
    .munmap (searchStart + 0x1800) 0x800]

/-- The list after the two mmaps of `unalignedUnmapRun`. -/
def mappedList : VmaList :=
  ⟨[bottomMarker, ⟨2, searchStart, searchStart + 0x3000, 3, .file 0⟩,
    ⟨3, searchStart + 0x3000, searchStart + 0x4000, 3, .anon⟩, topMarker], 4⟩

/-- The list after its munmap: the file vma ends at the unaligned edge, a piece of it that
starts a page lower overlaps it and continues the file at the unaligned edge's offset, and
the rest of the file mapping is gone. -/
def splitList : VmaList :=
  ⟨[bottomMarker, ⟨2, searchStart, searchStart + 0x1800, 3, .file 0⟩,
    ⟨5, searchStart + 0x1000, searchStart + 0x1800, 3, .file 0x1800⟩,
    ⟨3, searchStart + 0x3000, searchStart + 0x4000, 3, .anon⟩, topMarker], 9⟩

theorem vma_list_invariant_broken :
    (∃ l, Reachable vmaSystem l ∧
      (∃ a ∈ l.vmas, ∃ b ∈ l.vmas, a ≠ b ∧ a.start < b.stop ∧ b.start < a.stop) ∧
      ∃ a ∈ l.vmas, a.stop % pageSize ≠ 0) ∧
    (∃ l, Reachable vmaSystem l ∧ topMarker ∉ l.vmas ∧
      ∀ fuel v start size, allocate fuel l v start size true = none) ∧
    (∃ l c l', Reachable vmaSystem l ∧ vmaSystem.step l c l' ∧
      ∃ v ∈ l.vmas, ∃ p ∈ l'.vmas, ∃ x, v.start ≤ x ∧ x < v.stop ∧ p.start ≤ x ∧ x < p.stop ∧
        p.offset x ≠ v.offset x) ∧
    (∃ l, Reachable vmaSystem l ∧ ∃ fuel v start size l' r,
      allocate fuel l v start size true = some (l', r, []) ∧
      ∃ w ∈ l.vmas, r < w.stop ∧ w.start < r + size) := by
  have hmapped : runFrom (mman 8) VmaList.init (unalignedUnmapRun.take 2) = some mappedList :=
    rfl
  have hmunmap : mman 8 mappedList (.munmap (searchStart + 0x1800) 0x800) = some splitList := rfl
  have hsplit : runFrom (mman 8) VmaList.init unalignedUnmapRun = some splitList := rfl
  have hmarker : runFrom (mman 8) VmaList.init [.munmap 0x7ffffffff000 0x2000] =
      some ⟨[bottomMarker], 2⟩ := rfl
  -- mmap(NULL, 2 pages) takes the end of the file vma as its hole: the gap to the piece
  -- above wraps around to a huge unsigned number
  have hoverlap : allocate 8 splitList (newVma 9 0 0x2000 3 .anon) 0 0x2000 true =
      some (splitList, searchStart + 0x1800, []) := rfl
  refine ⟨⟨splitList, reachable_of_run hsplit, by decide, by decide⟩,
    ⟨_, reachable_of_run hmarker, by decide, fun _ _ _ _ => rfl⟩,
    ⟨mappedList, _, splitList, reachable_of_run hmapped, ⟨8, hmunmap⟩,
      ⟨2, searchStart, searchStart + 0x3000, 3, .file 0⟩, by decide,
      ⟨5, searchStart + 0x1000, searchStart + 0x1800, 3, .file 0x1800⟩, by decide,
      searchStart + 0x1000, by decide⟩,
    ⟨splitList, reachable_of_run hsplit, 8, _, 0, 0x2000, _, _, hoverlap, by decide⟩⟩

end Osv.Mmu
