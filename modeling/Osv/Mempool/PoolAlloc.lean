import Mathlib.Data.List.Perm.Basic
import Osv.Lib.Transition
import Osv.Mempool.Pool

/-!
# A pool's pages: `alloc` and `free_same_cpu`

A `pool` (`core/mempool.cc`) keeps, on each cpu, `_free`: the list of its pages that have a free
object, each page listing its free objects in the `local_free` list of its `page_header` and
counting in `nalloc` the objects handed out.  `pool::alloc()` adds a page with `add_page()` when
`_free` is empty, then takes the first object of the front page, and unlinks the page when that
was its last.  `pool::free_same_cpu(obj)` decrements the page's `nalloc`; when it reaches `0`
and `have_full_pages()` finds a page with nothing handed out at the back of `_free`, it unlinks
the page and gives it back to the page allocator; otherwise it pushes `obj` on `local_free`,
first linking a page that had no free object, at the front of `_free` if objects of it are
still out and at the back if none are.

This is one pool on one cpu, each call a step.  `untracked_alloc_page()` hands `add_page` a
non-null aligned page the pool does not own; a caller frees only an object it was handed.  As
a ghost, the state lists the objects handed out and not freed.

**The invariant** (`Inv`).  The objects `add_page` carved from an owned page are those of them
handed out and those on its `local_free` list, each once (`Inv.carved`), and `nalloc` counts the
first (`Inv.nalloc`); a page is on `_free` exactly when its `local_free` list is not empty.
From it (`pool_page_bookkeeping`): `nalloc` and the length of `local_free` add up to the objects
carved, no object is both handed out and free, `alloc` returns an object not handed out, and a
page goes back to the page allocator only when its last object comes back.
-/

namespace Osv.Mempool

open Transition

/-- A `page_header` as the bookkeeping reads it: `nalloc`, and the `local_free` list, head
first. -/
structure PageHeader where
  nalloc : ℕ
  localFree : List ℕ
  deriving DecidableEq, Repr

/-- One pool on one cpu: the headers of the pages it owns, by address, and `_free`, front first;
as a ghost, the objects handed out and not freed. -/
structure PoolState where
  headers : ℕ → Option PageHeader
  free : List ℕ
  allocated : List ℕ

/-- A call on the pool: `alloc`, with the page `untracked_alloc_page()` would return, or
`free_same_cpu` of an object. -/
inductive PoolOp where
  | alloc (page : ℕ)
  | free (obj : ℕ)
  deriving DecidableEq, Repr

namespace PoolState

/-- No page. -/
def init : PoolState := ⟨fun _ => none, [], []⟩

variable (pool : Pool)

/-- `pool::add_page()` on the page `untracked_alloc_page()` returned: a header with no object
handed out and every object carved on `local_free`, linked at the back of `_free`. -/
def addPage (s : PoolState) (page : ℕ) : PoolState :=
  { s with headers := Function.update s.headers page (some ⟨0, pool.addPage page⟩),
           free := s.free ++ [page] }

/-- `pool::alloc()` after its loop: the first object of the front page of `_free`, the page
unlinked when that was its last. -/
def take (s : PoolState) : Option (PoolState × ℕ) :=
  match s.free with
  | [] => none
  | page :: rest =>
      match s.headers page with
      | none => none
      | some h =>
          match h.localFree with
          | [] => none
          | obj :: tail =>
              some ({ s with headers := Function.update s.headers page (some ⟨h.nalloc + 1, tail⟩),
                             free := if tail = [] then rest else page :: rest,
                             allocated := obj :: s.allocated }, obj)

/-- `pool::alloc()`, `untracked_alloc_page()` returning `page` if `_free` is empty. -/
def alloc (s : PoolState) (page : ℕ) : Option (PoolState × ℕ) :=
  if s.free = [] then (s.addPage pool page).take else s.take

/-- `pool::have_full_pages()`: the back page of `_free` has no object handed out. -/
def haveFullPages (s : PoolState) : Bool :=
  match s.free.getLast? with
  | none => false
  | some page =>
      match s.headers page with
      | some h => h.nalloc == 0
      | none => false

/-- `pool::free_same_cpu(obj, cpu_id)`: the state after, and the page given to
`untracked_free_page()`, if any.  `nalloc` is at least one here, so `--nalloc` does not wrap. -/
def freeSameCpu (s : PoolState) (obj : ℕ) : PoolState × Option ℕ :=
  let page := toHeader obj
  match s.headers page with
  | none => (s, none)
  | some h =>
      let nalloc := h.nalloc - 1
      let s := { s with headers := Function.update s.headers page (some ⟨nalloc, h.localFree⟩),
                        allocated := s.allocated.erase obj }
      if nalloc = 0 ∧ s.haveFullPages = true then
        ({ s with headers := Function.update s.headers page none,
                  free := if h.localFree ≠ [] then s.free.erase page else s.free }, some page)
      else
        ({ s with headers := Function.update s.headers page (some ⟨nalloc, obj :: h.localFree⟩),
                  free := if h.localFree = [] then
                      (if nalloc ≠ 0 then page :: s.free else s.free ++ [page])
                    else s.free }, none)

@[simp] theorem addPage_headers (s : PoolState) (page : ℕ) :
    (s.addPage pool page).headers = Function.update s.headers page (some ⟨0, pool.addPage page⟩) :=
  rfl

@[simp] theorem addPage_free (s : PoolState) (page : ℕ) :
    (s.addPage pool page).free = s.free ++ [page] := rfl

@[simp] theorem addPage_allocated (s : PoolState) (page : ℕ) :
    (s.addPage pool page).allocated = s.allocated := rfl

/-- A page `untracked_alloc_page()` may return: aligned, not null, and not the pool's. -/
def Fresh (s : PoolState) (page : ℕ) : Prop :=
  pageSize ∣ page ∧ 0 < page ∧ s.headers page = none

instance (s : PoolState) (page : ℕ) : Decidable (s.Fresh page) :=
  inferInstanceAs (Decidable (_ ∧ _ ∧ _))

/-- One call.  `alloc` gets a fresh page when it needs one, and only an object handed out is
freed. -/
def step (s : PoolState) : PoolOp → Option PoolState
  | .alloc page => if s.free ≠ [] ∨ s.Fresh page then (s.alloc pool page).map Prod.fst else none
  | .free obj => if obj ∈ s.allocated then some (s.freeSameCpu obj).1 else none

end PoolState

/-- Every sequence of calls on one pool on one cpu. -/
def poolSystem (pool : Pool) : System PoolState PoolOp :=
  System.ofFun (· = PoolState.init) (PoolState.step pool)

/-! ## The objects of a page -/

/-- `add_page` carves no object twice. -/
theorem addPage_nodup {pool : Pool} {page : ℕ} (hpage : pool.size ≤ page) :
    (pool.addPage page).Nodup :=
  (addPage_pairwise hpage).imp fun h he => by
    have := pool.size_pos
    omega

/-- `add_page` carves at least the top slot of the page. -/
theorem addPage_ne_nil (pool : Pool) (page : ℕ) : pool.addPage page ≠ [] := by
  have hfits := pool.fits
  have hmem : page + pageSize - pool.size ∈ pool.addPage page := by
    rw [mem_addPage]
    refine ⟨by omega, by omega, by simp⟩
  intro h
  rw [h] at hmem
  cases hmem

namespace PoolState

variable {pool : Pool} {s : PoolState}

/-- The objects handed out from `page`. -/
def allocatedOn (s : PoolState) (page : ℕ) : List ℕ := s.allocated.filter (toHeader · = page)

/-- The bookkeeping of one pool between calls. -/
structure Inv (pool : Pool) (s : PoolState) : Prop where
  /-- the objects carved from an owned page are those handed out and those on `local_free` -/
  carved : ∀ page h, s.headers page = some h →
    (pool.addPage page).Perm (s.allocatedOn page ++ h.localFree)
  /-- `nalloc` counts the objects handed out -/
  nalloc : ∀ page h, s.headers page = some h → h.nalloc = (s.allocatedOn page).length
  /-- a page is on `_free` when it has a free object -/
  linked : ∀ page h, s.headers page = some h → (page ∈ s.free ↔ h.localFree ≠ [])
  owned : ∀ page ∈ s.free, s.headers page ≠ none
  freeNodup : s.free.Nodup
  aligned : ∀ page h, s.headers page = some h → pageSize ∣ page ∧ 0 < page
  allocatedNodup : s.allocated.Nodup
  allocatedOwned : ∀ x ∈ s.allocated, s.headers (toHeader x) ≠ none

theorem inv_init : Inv pool init where
  carved _ _ h := by cases h
  nalloc _ _ h := by cases h
  linked _ _ h := by cases h
  owned _ h := by cases h
  freeNodup := List.nodup_nil
  aligned _ _ h := by cases h
  allocatedNodup := List.nodup_nil
  allocatedOwned _ h := by cases h

/-- **An object on a `local_free` list** lies in that page and is not handed out. -/
theorem Inv.mem_localFree (hinv : Inv pool s) {page : ℕ} {h : PageHeader}
    (hpage : s.headers page = some h) {x : ℕ} (hx : x ∈ h.localFree) :
    toHeader x = page ∧ x ∉ s.allocated := by
  obtain ⟨hdvd, hpos⟩ := hinv.aligned page h hpage
  have hperm := hinv.carved page h hpage
  have hcarved : x ∈ pool.addPage page := hperm.mem_iff.mpr (List.mem_append_right _ hx)
  have hhdr := toHeader_addPage hdvd hcarved
  refine ⟨hhdr, fun hal => ?_⟩
  -- the objects of the page are carved once, so none is both handed out and free
  have hsize : pool.size ≤ page := (size_le_pageSize pool).trans (Nat.le_of_dvd hpos hdvd)
  have hnd := (hperm.nodup_iff.mp (addPage_nodup hsize))
  exact List.disjoint_of_nodup_append hnd (List.mem_filter.mpr ⟨hal, by simp [hhdr]⟩) hx

/-- Nothing is handed out from a page the pool does not own. -/
theorem Inv.allocatedOn_eq_nil (hinv : Inv pool s) {page : ℕ} (hnone : s.headers page = none) :
    s.allocatedOn page = [] :=
  List.filter_eq_nil_iff.mpr fun x hx hhdr =>
    hinv.allocatedOwned x hx (by rw [of_decide_eq_true hhdr, hnone]) |>.elim

/-! ## `add_page` -/

/-- **`add_page` keeps the invariant**, for a fresh page. -/
theorem Inv.addPage (hinv : Inv pool s) {page : ℕ} (hfresh : s.Fresh page) :
    Inv pool (s.addPage pool page) := by
  obtain ⟨hdvd, hpos, hnone⟩ := hfresh
  have hempty : (s.addPage pool page).allocatedOn page = [] := hinv.allocatedOn_eq_nil hnone
  have hnotin : page ∉ s.free := fun hin => hinv.owned page hin hnone
  -- the pages other than `page` keep their header
  have hother : ∀ p, p ≠ page → (s.addPage pool page).headers p = s.headers p := fun p hpp => by
    rw [addPage_headers, Function.update_of_ne hpp]
  have hnew : ∀ h, (s.addPage pool page).headers page = some h → h = ⟨0, pool.addPage page⟩ :=
    fun h hp => by
      rw [addPage_headers, Function.update_self] at hp
      exact (Option.some.inj hp).symm
  constructor
  · intro p h hp
    by_cases hpp : p = page
    · subst hpp
      rw [hnew h hp, hempty, List.nil_append]
    · rw [hother p hpp] at hp
      exact hinv.carved p h hp
  · intro p h hp
    by_cases hpp : p = page
    · subst hpp
      rw [hnew h hp, hempty, List.length_nil]
    · rw [hother p hpp] at hp
      exact hinv.nalloc p h hp
  · intro p h hp
    rw [addPage_free, List.mem_append, List.mem_singleton]
    by_cases hpp : p = page
    · subst hpp
      rw [hnew h hp]
      exact iff_of_true (.inr rfl) (addPage_ne_nil pool p)
    · rw [hother p hpp] at hp
      rw [or_iff_left hpp]
      exact hinv.linked p h hp
  · intro p hp
    rw [addPage_free, List.mem_append, List.mem_singleton] at hp
    by_cases hpp : p = page
    · rw [hpp, addPage_headers, Function.update_self]; exact Option.some_ne_none _
    · rw [hother p hpp]; exact hinv.owned p (hp.resolve_right hpp)
  · rw [addPage_free]
    exact List.nodup_append.mpr ⟨hinv.freeNodup, List.nodup_singleton _,
      fun a ha b hb hab => hnotin (by rw [List.mem_singleton] at hb; rwa [hab, hb] at ha)⟩
  · intro p h hp
    by_cases hpp : p = page
    · rw [hpp]; exact ⟨hdvd, hpos⟩
    · rw [hother p hpp] at hp
      exact hinv.aligned p h hp
  · exact hinv.allocatedNodup
  · intro x hx
    by_cases hpp : toHeader x = page
    · rw [hpp, addPage_headers, Function.update_self]; exact Option.some_ne_none _
    · rw [hother _ hpp]; exact hinv.allocatedOwned x hx

/-! ## The frame of one page -/

/-- The objects handed out from a page, after `obj` is handed out. -/
theorem allocatedOn_cons {t : PoolState} {obj : ℕ} (h : t.allocated = obj :: s.allocated)
    (p : ℕ) :
    t.allocatedOn p = if toHeader obj = p then obj :: s.allocatedOn p else s.allocatedOn p := by
  by_cases hp : toHeader obj = p <;> simp [allocatedOn, h, hp]

/-- The objects handed out from a page, after `obj` comes back. -/
theorem allocatedOn_erase {t : PoolState} {obj : ℕ} (h : t.allocated = s.allocated.erase obj)
    (p : ℕ) : t.allocatedOn p = (s.allocatedOn p).erase obj := by
  rw [allocatedOn, h, ← List.erase_filter, allocatedOn]

/-- **One page changes.**  A state whose headers are those of `s` but for the owned page `page`
keeps the invariant when the page's part of it holds for its new header, and nothing else of
the other pages moved. -/
theorem Inv.update (hinv : Inv pool s) {page : ℕ} {h : PageHeader} (hold : s.headers page ≠ none)
    {t : PoolState} (hheaders : t.headers = Function.update s.headers page (some h))
    (hon : ∀ p, p ≠ page → t.allocatedOn p = s.allocatedOn p)
    (hfree : ∀ p, p ≠ page → (p ∈ t.free ↔ p ∈ s.free))
    (hcarved : (pool.addPage page).Perm (t.allocatedOn page ++ h.localFree))
    (hnalloc : h.nalloc = (t.allocatedOn page).length)
    (hlinked : page ∈ t.free ↔ h.localFree ≠ []) (hfreeNodup : t.free.Nodup)
    (hallocNodup : t.allocated.Nodup)
    (hallocOwned : ∀ x ∈ t.allocated, toHeader x = page ∨ x ∈ s.allocated) : Inv pool t := by
  have hother : ∀ p, p ≠ page → t.headers p = s.headers p := fun p hp => by
    rw [hheaders, Function.update_of_ne hp]
  have hself : t.headers page = some h := by rw [hheaders, Function.update_self]
  have hsome : ∀ p, t.headers p = none → s.headers p = none ∧ p ≠ page := fun p hp => by
    by_cases hpp : p = page
    · rw [hpp, hself] at hp; cases hp
    · exact ⟨(hother p hpp) ▸ hp, hpp⟩
  refine ⟨fun p h' hp => ?_, fun p h' hp => ?_, fun p h' hp => ?_, fun p hp hnone => ?_,
    hfreeNodup, fun p h' hp => ?_, hallocNodup, fun x hx hnone => ?_⟩
  · by_cases hpp : p = page
    · subst hpp; rw [hself] at hp; cases hp; exact hcarved
    · rw [hother p hpp] at hp; rw [hon p hpp]; exact hinv.carved p h' hp
  · by_cases hpp : p = page
    · subst hpp; rw [hself] at hp; cases hp; exact hnalloc
    · rw [hother p hpp] at hp; rw [hon p hpp]; exact hinv.nalloc p h' hp
  · by_cases hpp : p = page
    · subst hpp; rw [hself] at hp; cases hp; exact hlinked
    · rw [hother p hpp] at hp; rw [hfree p hpp]; exact hinv.linked p h' hp
  · obtain ⟨hs, hpp⟩ := hsome p hnone
    exact hinv.owned p ((hfree p hpp).mp hp) hs
  · by_cases hpp : p = page
    · subst hpp
      obtain ⟨h0, h0'⟩ := Option.ne_none_iff_exists'.mp hold
      exact hinv.aligned p h0 h0'
    · rw [hother p hpp] at hp; exact hinv.aligned p h' hp
  · obtain ⟨hs, hpp⟩ := hsome _ hnone
    rcases hallocOwned x hx with hx' | hx'
    · exact hpp hx'
    · exact hinv.allocatedOwned x hx' hs

/-! ## `alloc` -/

theorem take_allocated {t : PoolState} {obj : ℕ} (htake : s.take = some (t, obj)) :
    t.allocated = obj :: s.allocated := by
  unfold PoolState.take at htake
  split at htake
  · cases htake
  · split at htake
    · cases htake
    · split at htake
      · cases htake
      · cases htake
        rfl

/-- `alloc` hands out one more object. -/
theorem alloc_allocated {page : ℕ} {t : PoolState} {obj : ℕ}
    (halloc : s.alloc pool page = some (t, obj)) : t.allocated = obj :: s.allocated := by
  unfold PoolState.alloc at halloc
  split_ifs at halloc
  · -- `add_page` hands out nothing
    have h := take_allocated halloc
    exact h
  · exact take_allocated halloc

/-- **`alloc` after its loop keeps the invariant**, and hands out an object that was free. -/
theorem Inv.take (hinv : Inv pool s) {t : PoolState} {obj : ℕ} (htake : s.take = some (t, obj)) :
    Inv pool t ∧ obj ∉ s.allocated := by
  -- the front page, its header, and its first free object
  obtain ⟨page, rest, hd, tail, hfree, hpage, hlf, rfl⟩ : ∃ page rest hd tail,
      s.free = page :: rest ∧ s.headers page = some hd ∧ hd.localFree = obj :: tail ∧
      t = { s with headers := Function.update s.headers page (some ⟨hd.nalloc + 1, tail⟩),
                   free := if tail = [] then rest else page :: rest,
                   allocated := obj :: s.allocated } := by
    unfold PoolState.take at htake
    split at htake
    · cases htake
    · rename_i page rest hfree
      split at htake
      · cases htake
      · rename_i hd hpage
        split at htake
        · cases htake
        · rename_i o tail hlf
          cases htake
          exact ⟨page, rest, hd, tail, hfree, hpage, hlf, rfl⟩
  have hmem : obj ∈ hd.localFree := hlf ▸ List.mem_cons_self
  obtain ⟨hhdr, hfreeobj⟩ := hinv.mem_localFree hpage hmem
  have hon := allocatedOn_cons (s := s) (t := { s with
    headers := Function.update s.headers page (some ⟨hd.nalloc + 1, tail⟩),
    free := if tail = [] then rest else page :: rest, allocated := obj :: s.allocated }) rfl
  have hnd : (page :: rest).Nodup := hfree ▸ hinv.freeNodup
  refine ⟨hinv.update (by rw [hpage]; exact Option.some_ne_none _) rfl (fun p hp => ?_)
    (fun p hp => ?_) ?_ ?_ ?_ ?_ (List.nodup_cons.mpr ⟨hfreeobj, hinv.allocatedNodup⟩) ?_, hfreeobj⟩
  · rw [hon p, if_neg (by rw [hhdr]; exact Ne.symm hp)]
  · rw [hfree]
    dsimp only
    split_ifs
    · rw [List.mem_cons, or_iff_right hp]
    · rfl
  · -- the carved objects: the new object moves from `local_free` to the handed out
    rw [hon page, if_pos hhdr, List.cons_append]
    have := hinv.carved page hd hpage
    rw [hlf] at this
    exact this.trans List.perm_middle
  · rw [hon page, if_pos hhdr, List.length_cons, hinv.nalloc page hd hpage]
  · dsimp only
    split_ifs with htail
    · rw [htail]
      exact iff_of_false (List.nodup_cons.mp hnd).1 (fun h => h rfl)
    · exact iff_of_true List.mem_cons_self htail
  · dsimp only
    split_ifs
    · exact (List.nodup_cons.mp hnd).2
    · exact hnd
  · intro x hx
    rcases List.mem_cons.mp hx with rfl | hx
    · exact .inl hhdr
    · exact .inr hx

/-- **`alloc` keeps the invariant and always succeeds**, given a fresh page when `_free` is
empty; the object it returns was not handed out. -/
theorem Inv.alloc (hinv : Inv pool s) {page : ℕ} (hpage : s.free ≠ [] ∨ s.Fresh page) :
    ∃ t obj, s.alloc pool page = some (t, obj) ∧ Inv pool t ∧ obj ∉ s.allocated := by
  -- the front page of a non-empty `_free` has a free object
  have htake : ∀ {s : PoolState}, Inv pool s → s.free ≠ [] → ∃ t obj, s.take = some (t, obj) := by
    intro s hs hne
    obtain ⟨p, rest, hfree⟩ := List.exists_cons_of_ne_nil hne
    obtain ⟨hd, hp⟩ := Option.ne_none_iff_exists'.mp
      (hs.owned p (hfree ▸ List.mem_cons_self))
    obtain ⟨o, tail, hlf⟩ := List.exists_cons_of_ne_nil
      ((hs.linked p hd hp).mp (hfree ▸ List.mem_cons_self))
    cases ht : s.take with
    | none => simp only [PoolState.take, hfree, hp, hlf, reduceCtorEq] at ht
    | some r => exact ⟨r.1, r.2, rfl⟩
  unfold PoolState.alloc
  split_ifs with hempty
  · -- `add_page` first
    have hfresh := hpage.resolve_left (not_not.mpr hempty)
    have hinv' := hinv.addPage hfresh
    obtain ⟨t, obj, ht⟩ := htake hinv' (by simp)
    obtain ⟨hinvt, hobj⟩ := hinv'.take ht
    exact ⟨t, obj, ht, hinvt, hobj⟩
  · obtain ⟨t, obj, ht⟩ := htake hinv hempty
    obtain ⟨hinvt, hobj⟩ := hinv.take ht
    exact ⟨t, obj, ht, hinvt, hobj⟩

/-! ## `free_same_cpu` -/

section Free

variable {obj : ℕ} {hd : PageHeader}

/-- Of the objects handed out from another page, none is `obj`. -/
theorem allocatedOn_erase_of_ne {t : PoolState} (h : t.allocated = s.allocated.erase obj)
    {p : ℕ} (hp : p ≠ toHeader obj) : t.allocatedOn p = s.allocatedOn p := by
  rw [allocatedOn_erase h, List.erase_of_not_mem]
  intro hmem
  exact hp (of_decide_eq_true (List.mem_filter.mp hmem).2).symm

/-- The object freed was handed out from its page. -/
theorem mem_allocatedOn (hobj : obj ∈ s.allocated) : obj ∈ s.allocatedOn (toHeader obj) :=
  List.mem_filter.mpr ⟨hobj, decide_eq_true rfl⟩

/-- **The page goes back.**  When the last object of a page comes back, nothing else is handed
out from it, and the pool may drop it. -/
theorem Inv.release (hinv : Inv pool s) (hobj : obj ∈ s.allocated)
    (hpage : s.headers (toHeader obj) = some hd) (hlast : hd.nalloc - 1 = 0) {t : PoolState}
    (hheaders : t.headers = Function.update s.headers (toHeader obj) none)
    (hfree : t.free = if hd.localFree ≠ [] then s.free.erase (toHeader obj) else s.free)
    (halloc : t.allocated = s.allocated.erase obj) :
    Inv pool t ∧ hd.nalloc = 1 ∧ ∀ x ∈ t.allocated, toHeader x ≠ toHeader obj := by
  have hon := mem_allocatedOn hobj
  have hlen := hinv.nalloc _ hd hpage
  have hone : hd.nalloc = 1 := by
    have := List.length_pos_of_mem hon
    omega
  -- the object was the only one handed out from its page
  have hgone : ∀ x ∈ t.allocated, toHeader x ≠ toHeader obj := by
    intro x hx hhdr
    rw [halloc] at hx
    have hxs := List.mem_of_mem_erase hx
    have hxon : x ∈ s.allocatedOn (toHeader obj) := List.mem_filter.mpr ⟨hxs, decide_eq_true hhdr⟩
    obtain ⟨y, hy⟩ := List.length_eq_one_iff.mp (hone ▸ hlen).symm
    rw [hy, List.mem_singleton] at hon hxon
    exact hinv.allocatedNodup.not_mem_erase (hxon.trans hon.symm ▸ hx)
  have hother : ∀ p, p ≠ toHeader obj → t.headers p = s.headers p := fun p hp => by
    rw [hheaders, Function.update_of_ne hp]
  have hnotin : toHeader obj ∉ t.free := by
    rw [hfree]
    split_ifs with hlf
    · exact hinv.freeNodup.not_mem_erase
    · exact fun hin => hlf ((hinv.linked _ hd hpage).mp hin)
  have hmemfree : ∀ p, p ≠ toHeader obj → (p ∈ t.free ↔ p ∈ s.free) := fun p hp => by
    rw [hfree]
    split_ifs
    · exact List.mem_erase_of_ne hp
    · rfl
  have hne : ∀ p, s.headers p ≠ none → t.headers p = none → p = toHeader obj := fun p hs ht => by
    by_contra hp
    exact hs ((hother p hp) ▸ ht)
  refine ⟨⟨fun p h hp => ?_, fun p h hp => ?_, fun p h hp => ?_, fun p hp hnone => ?_, ?_,
    fun p h hp => ?_, halloc ▸ hinv.allocatedNodup.erase obj, fun x hx hnone => ?_⟩, hone, hgone⟩
  · have hpp : p ≠ toHeader obj := fun he => by rw [he, hheaders, Function.update_self] at hp; cases hp
    rw [hother p hpp] at hp
    rw [allocatedOn_erase_of_ne halloc hpp]
    exact hinv.carved p h hp
  · have hpp : p ≠ toHeader obj := fun he => by rw [he, hheaders, Function.update_self] at hp; cases hp
    rw [hother p hpp] at hp
    rw [allocatedOn_erase_of_ne halloc hpp]
    exact hinv.nalloc p h hp
  · have hpp : p ≠ toHeader obj := fun he => by rw [he, hheaders, Function.update_self] at hp; cases hp
    rw [hother p hpp] at hp
    rw [hmemfree p hpp]
    exact hinv.linked p h hp
  · have hpp : p ≠ toHeader obj := fun he => hnotin (he ▸ hp)
    rw [hother p hpp] at hnone
    exact hinv.owned p ((hmemfree p hpp).mp hp) hnone
  · rw [hfree]
    split_ifs
    · exact hinv.freeNodup.erase _
    · exact hinv.freeNodup
  · have hpp : p ≠ toHeader obj := fun he => by rw [he, hheaders, Function.update_self] at hp; cases hp
    rw [hother p hpp] at hp
    exact hinv.aligned p h hp
  · have hxs : x ∈ s.allocated := List.mem_of_mem_erase (halloc ▸ hx)
    exact hgone x hx (hne _ (hinv.allocatedOwned x hxs) hnone)

/-- **The object goes back on `local_free`**, the page linked first if it had no free
object. -/
theorem Inv.pushFree (hinv : Inv pool s) (hobj : obj ∈ s.allocated)
    (hpage : s.headers (toHeader obj) = some hd) {t : PoolState}
    (hheaders : t.headers =
      Function.update s.headers (toHeader obj) (some ⟨hd.nalloc - 1, obj :: hd.localFree⟩))
    (hfree : t.free = if hd.localFree = [] then
        (if hd.nalloc - 1 ≠ 0 then toHeader obj :: s.free else s.free ++ [toHeader obj])
      else s.free)
    (halloc : t.allocated = s.allocated.erase obj) : Inv pool t := by
  have hon := mem_allocatedOn hobj
  have hlinked := hinv.linked _ hd hpage
  have hnotin : hd.localFree = [] → toHeader obj ∉ s.free := fun hlf hin => hlinked.mp hin hlf
  refine hinv.update (by rw [hpage]; exact Option.some_ne_none _) hheaders
    (fun p hp => allocatedOn_erase_of_ne halloc hp) (fun p hp => ?_) ?_ ?_ ?_ ?_ ?_ ?_
  · rw [hfree]
    split_ifs
    · rw [List.mem_cons, or_iff_right hp]
    · rw [List.mem_append, List.mem_singleton, or_iff_left hp]
    · rfl
  · -- the object moves from the handed out to `local_free`
    rw [allocatedOn_erase halloc]
    exact (hinv.carved _ hd hpage).trans
      (((List.perm_cons_erase hon).append_right _).trans List.perm_middle.symm)
  · rw [allocatedOn_erase halloc, List.length_erase_of_mem hon, hinv.nalloc _ hd hpage]
  · rw [hfree]
    split_ifs with hlf
    · exact iff_of_true List.mem_cons_self (List.cons_ne_nil _ _)
    · exact iff_of_true (List.mem_append_right _ (List.mem_singleton_self _)) (List.cons_ne_nil _ _)
    · exact iff_of_true (hlinked.mpr hlf) (List.cons_ne_nil _ _)
  · rw [hfree]
    split_ifs with hlf
    · exact List.nodup_cons.mpr ⟨hnotin hlf, hinv.freeNodup⟩
    · exact List.nodup_append.mpr ⟨hinv.freeNodup, List.nodup_singleton _,
        fun a ha b hb hab => hnotin hlf (by rw [List.mem_singleton] at hb; rwa [hab, hb] at ha)⟩
    · exact hinv.freeNodup
  · rw [halloc]; exact hinv.allocatedNodup.erase obj
  · intro x hx
    rw [halloc] at hx
    exact .inr (List.mem_of_mem_erase hx)

/-- **What `free_same_cpu` does**: with the page's header `hd`, either `nalloc` reaches `0` and
the page goes back, unlinked, or `obj` goes on `local_free`, the page linked if it was not. -/
theorem freeSameCpu_cases (hpage : s.headers (toHeader obj) = some hd) :
    (hd.nalloc - 1 = 0 ∧ (s.freeSameCpu obj).2 = some (toHeader obj) ∧
      (s.freeSameCpu obj).1 = ⟨Function.update s.headers (toHeader obj) none,
        if hd.localFree ≠ [] then s.free.erase (toHeader obj) else s.free,
        s.allocated.erase obj⟩) ∨
    ((s.freeSameCpu obj).2 = none ∧
      (s.freeSameCpu obj).1 = ⟨Function.update s.headers (toHeader obj)
          (some ⟨hd.nalloc - 1, obj :: hd.localFree⟩),
        if hd.localFree = [] then
          (if hd.nalloc - 1 ≠ 0 then toHeader obj :: s.free else s.free ++ [toHeader obj])
        else s.free,
        s.allocated.erase obj⟩) := by
  simp only [PoolState.freeSameCpu, hpage]
  split_ifs with hfull
  all_goals first
    | exact .inl ⟨hfull.1, rfl, by simp only [Function.update_idem]⟩
    | exact .inr ⟨rfl, by simp only [Function.update_idem]⟩

/-- `free_same_cpu` takes the object off the ones handed out. -/
theorem freeSameCpu_allocated (hpage : s.headers (toHeader obj) = some hd) :
    (s.freeSameCpu obj).1.allocated = s.allocated.erase obj := by
  rcases freeSameCpu_cases hpage with ⟨-, -, h⟩ | ⟨-, h⟩ <;> rw [h]

/-- **`free_same_cpu` keeps the invariant**, and gives a page back only when the object freed
was the last one handed out from it. -/
theorem Inv.freeSameCpu (hinv : Inv pool s) (hobj : obj ∈ s.allocated) :
    Inv pool (s.freeSameCpu obj).1 ∧ ∀ page, (s.freeSameCpu obj).2 = some page →
      (∃ h, s.headers page = some h ∧ h.nalloc = 1) ∧
        ∀ x ∈ (s.freeSameCpu obj).1.allocated, toHeader x ≠ page := by
  obtain ⟨hd, hpage⟩ := Option.ne_none_iff_exists'.mp (hinv.allocatedOwned obj hobj)
  rcases freeSameCpu_cases hpage with ⟨hlast, h2, h1⟩ | ⟨h2, h1⟩
  · -- the page goes back to the page allocator
    rw [h1, h2]
    obtain ⟨hinv', hone, hgone⟩ := hinv.release hobj hpage hlast (t := ⟨_, _, _⟩) rfl rfl rfl
    refine ⟨hinv', fun page hp => ?_⟩
    cases hp
    exact ⟨⟨hd, hpage, hone⟩, hgone⟩
  · rw [h1, h2]
    exact ⟨hinv.pushFree hobj hpage (t := ⟨_, _, _⟩) rfl rfl rfl, fun page hp => by cases hp⟩

end Free

/-! ## Every run -/

theorem Inv.step (hinv : Inv pool s) {op : PoolOp} {t : PoolState} (h : s.step pool op = some t) :
    Inv pool t := by
  cases op with
  | alloc page =>
      simp only [PoolState.step] at h
      split_ifs at h with hpage
      obtain ⟨t', obj, ha, hinv', -⟩ := hinv.alloc hpage
      rw [ha] at h
      cases h
      exact hinv'
  | free obj =>
      simp only [PoolState.step] at h
      split_ifs at h with hobj
      cases h
      exact (hinv.freeSameCpu hobj).1

/-- **Every reachable state of a pool keeps the invariant.** -/
theorem inv_reachable (hs : Reachable (poolSystem pool) s) : Inv pool s :=
  Inductive.reachable (S := poolSystem pool) ⟨fun _ h => h ▸ inv_init, fun _ _ _ h hst => h.step hst⟩
    hs

end PoolState

open PoolState

/-- **The pool's bookkeeping.**  In every state a run of `alloc` and same-cpu `free` calls
reaches: for each page the pool owns, `nalloc` and the length of `local_free` add up to the
objects `add_page` carved, the page is on `_free` exactly when `local_free` is not empty, and no
object on `local_free` is handed out; `alloc` succeeds and returns an object not handed out; and
`free_same_cpu` gives a page back only when the object freed was the last one out, `nalloc`
reaching `0`. -/
theorem pool_page_bookkeeping {pool : Pool} {s : PoolState} (hs : Reachable (poolSystem pool) s) :
    (∀ page h, s.headers page = some h →
        h.nalloc + h.localFree.length = (pool.addPage page).length ∧
        (page ∈ s.free ↔ h.localFree ≠ []) ∧ ∀ x ∈ h.localFree, x ∉ s.allocated) ∧
      (∀ page, s.free ≠ [] ∨ s.Fresh page →
        ∃ t obj, s.alloc pool page = some (t, obj) ∧ obj ∉ s.allocated) ∧
      (∀ obj ∈ s.allocated, ∀ page, (s.freeSameCpu obj).2 = some page →
        (∃ h, s.headers page = some h ∧ h.nalloc = 1) ∧
          ∀ x ∈ (s.freeSameCpu obj).1.allocated, toHeader x ≠ page) := by
  have hinv := PoolState.inv_reachable hs
  refine ⟨fun page h hp => ⟨?_, hinv.linked page h hp, fun x hx => (hinv.mem_localFree hp hx).2⟩,
    fun page hpage => ?_, fun obj hobj => (hinv.freeSameCpu hobj).2⟩
  · rw [(hinv.carved page h hp).length_eq, List.length_append, hinv.nalloc page h hp]
  · obtain ⟨t, obj, ha, -, hobj⟩ := hinv.alloc hpage
    exact ⟨t, obj, ha, hobj⟩

/-- A page of the pool of `1024`-byte objects: the three objects above its header. -/
theorem addPage_mallocPool_ten : (mallocPool 10).addPage 0x1000 = [0x1400, 0x1800, 0x1C00] := by
  rw [Pool.addPage, Pool.addPageLoop, if_pos (by decide), Pool.addPageLoop, if_pos (by decide),
    Pool.addPageLoop, if_pos (by decide), Pool.addPageLoop, if_neg (by decide)]
  decide

/-- Two `alloc`s from the pool of `1024`-byte objects, the first of which adds the page
`0x1000`, and the `free_same_cpu` of the first object. -/
def poolRun : List PoolOp := [.alloc 0x1000, .alloc 0x2000, .free 0x1400]

/-- The state `poolRun` leaves: the page has one object out and two on `local_free`, the one
freed first. -/
def PoolState.oneOut : PoolState :=
  ⟨Function.update (fun _ => none) 0x1000 (some ⟨1, [0x1400, 0x1C00]⟩), [0x1000], [0x1800]⟩

theorem poolRun_eq :
    runFrom (PoolState.step (mallocPool 10)) PoolState.init poolRun = some PoolState.oneOut := by
  have ht : toHeader 0x1400 = 0x1000 := by decide
  simp [poolRun, runFrom, PoolState.step, PoolState.alloc, PoolState.take, PoolState.addPage,
    addPage_mallocPool_ten, PoolState.Fresh, PoolState.init, PoolState.freeSameCpu,
    PoolState.haveFullPages, ht, pageSize, PoolState.oneOut]

/-- After `poolRun`: freeing the object still out gives the page back. -/
theorem pool_page_bookkeeping_oneOut :
    Reachable (poolSystem (mallocPool 10)) PoolState.oneOut ∧
      (PoolState.oneOut.freeSameCpu 0x1800).2 = some 0x1000 ∧
      (∀ page h, PoolState.oneOut.headers page = some h →
          h.nalloc + h.localFree.length = ((mallocPool 10).addPage page).length ∧
          (page ∈ PoolState.oneOut.free ↔ h.localFree ≠ []) ∧
          ∀ x ∈ h.localFree, x ∉ PoolState.oneOut.allocated) ∧
        (∀ page, PoolState.oneOut.free ≠ [] ∨ PoolState.oneOut.Fresh page →
          ∃ t obj, PoolState.oneOut.alloc (mallocPool 10) page = some (t, obj) ∧
            obj ∉ PoolState.oneOut.allocated) ∧
        (∀ obj ∈ PoolState.oneOut.allocated, ∀ page, (PoolState.oneOut.freeSameCpu obj).2 = some page →
          (∃ h, PoolState.oneOut.headers page = some h ∧ h.nalloc = 1) ∧
            ∀ x ∈ (PoolState.oneOut.freeSameCpu obj).1.allocated, toHeader x ≠ page) :=
  have hr : Reachable (poolSystem (mallocPool 10)) PoolState.oneOut :=
    reachable_of_runFrom (Reachable.init rfl) poolRun_eq
  ⟨hr, by decide, pool_page_bookkeeping hr⟩

end Osv.Mempool
