import Mathlib.Data.List.Nodup
import Osv.Lib.Transition

/-!
# The UMA zone stub

`bsd/porting/uma_stub.cc` stands in for FreeBSD's slab allocator.  A zone hands out items of
`uz_size` bytes, each followed, in a `UMA_ZONE_REFCNT` zone, by a `uma_item_header` holding a
reference count.  `uma_zalloc_arg` takes an item from the cache of the current cpu, or else asks
`memory::alloc_page()` (when the size with the header is exactly `PAGE_SIZE`) or `malloc` for
one and runs `uz_init` on it; then it runs `uz_ctor`.  A failed `uz_init` or `uz_ctor` makes it
`free()` the item and return `NULL`.  `uma_zfree_arg` puts the item back in the cache of the
current cpu, at most `max_size` of them, or gives it to `memory::free_page()` or `free()`,
again by the size with the header.

A call touches shared state twice at most, each time atomically: the cache of its cpu, under
`preempt_lock`, and the allocators.  Everything else it does concerns its own item.  So the
model takes each call as one step; a call names its cpu, and the outcome of `uz_init` and
`uz_ctor` is part of the call.  Items are ghosts: a number and the allocator that produced it;
the model also records every item given back to an allocator, and to which.

**What holds** (`inv_reachable`).  Every item comes from the one allocator the zone's
allocation size picks (`Zone.source`); no cache grows past `max_size`; an item is live, in one
cache, or given back, at most one of these and at most once, so no item is handed out twice
while live.  Every item given back goes to the deallocator `uma_zfree_arg` picks
(`Zone.release`), or to `free()` after a failed `uz_init` or `uz_ctor` (`Inv.released`).

**What does not.**  The two sizes differ: `uma_zalloc_arg` adds `UMA_ITEM_HDR_LEN` for
`UMA_ZONE_REFCNT` only, `uma_zfree_arg` for any non-zero `uz_flags`; and the failure paths call
`free()` whatever the allocator was.  So a page from `alloc_page()` goes to `free()`, and an
object from `malloc` to `free_page()` (`uma_zone_release_mismatch`).
-/

namespace Osv.Bsd

open Transition

/-- `PAGE_SIZE` -/
def PAGE_SIZE : ℕ := 4096

/-- `UMA_ITEM_HDR_LEN`: `sizeof(struct uma_item_header)`, one `uint32_t`. -/
def umaItemHdrLen : ℕ := 4

/-- `UMA_ZONE_REFCNT` -/
def umaZoneRefcnt : ℕ := 0x0400

/-- `UMA_ZONE_NOFREE` -/
def umaZoneNofree : ℕ := 0x0020

/-- `uma_zone::cache::max_size` -/
def cacheMaxSize : ℕ := 1000

/-- A zone as `uma_zcreate` (or `uma_zsecond_create`, from its master) fills it in: `uz_size`,
`uz_flags`, and whether `uz_init` and `uz_ctor` are set. -/
structure Zone where
  uzSize : ℕ
  uzFlags : ℕ
  hasInit : Bool
  hasCtor : Bool
  deriving DecidableEq, Repr

/-- The allocator behind an item. -/
inductive Source where
  /-- `memory::alloc_page()` -/
  | allocPage
  /-- `malloc(size)` -/
  | malloc (size : ℕ)
  deriving DecidableEq, Repr

/-- The deallocator an item is given to. -/
inductive Release where
  /-- `memory::free_page(item)` -/
  | freePage
  /-- `free(item)` -/
  | free
  deriving DecidableEq, Repr

/-- The deallocator that belongs to an allocator. -/
def Source.matches : Source → Release → Bool
  | .allocPage, .freePage => true
  | .malloc _, .free => true
  | _, _ => false

/-- The bytes an allocator hands out. -/
def Source.size : Source → ℕ
  | .allocPage => PAGE_SIZE
  | .malloc size => size

namespace Zone

/-- `size` in `uma_zalloc_arg`: `uz_size`, and the header in a `UMA_ZONE_REFCNT` zone. -/
def allocSize (z : Zone) : ℕ :=
  if z.uzFlags &&& umaZoneRefcnt ≠ 0 then z.uzSize + umaItemHdrLen else z.uzSize

/-- `effective_size` in `uma_zfree_arg`: `uz_size`, and the header when `uz_flags` is not `0`. -/
def effectiveSize (z : Zone) : ℕ :=
  if z.uzFlags ≠ 0 then z.uzSize + umaItemHdrLen else z.uzSize

/-- The allocator `uma_zalloc_arg` asks for a new item. -/
def source (z : Zone) : Source :=
  if z.allocSize = PAGE_SIZE then .allocPage else .malloc z.allocSize

/-- The deallocator `uma_zfree_arg` gives an item to when the cache is full. -/
def release (z : Zone) : Release :=
  if z.effectiveSize = PAGE_SIZE then .freePage else .free

end Zone

/-- An item, as a ghost: a number, and the allocator that produced it. -/
structure Item where
  id : ℕ
  source : Source
  deriving DecidableEq, Repr

/-- The zone's state: the per-cpu caches, and as ghosts the items handed out and not freed, the
number of items the allocators produced, and the items given back to an allocator. -/
structure Uma where
  /-- `percpu_cache` of each cpu, `a[len - 1]` first -/
  caches : ℕ → List Item
  live : List Item
  next : ℕ
  released : List (Item × Release)

/-- `uma_zone::cache::alloc()`: `a[--len]`, or `nullptr`. -/
def cacheAlloc : List Item → Option (Item × List Item)
  | [] => none
  | obj :: rest => some (obj, rest)

/-- `uma_zone::cache::free(obj)`: `a[len++] = obj` while there is room. -/
def cacheFree (cache : List Item) (obj : Item) : Option (List Item) :=
  if cache.length < cacheMaxSize then some (obj :: cache) else none

namespace Uma

/-- No cache, nothing produced. -/
def init : Uma := ⟨fun _ => [], [], 0, []⟩

/-- `free(ptr); return (NULL);` -/
def dropItem (s : Uma) (ptr : Item) : Uma := { s with released := s.released ++ [(ptr, .free)] }

/-- The end of `uma_zalloc_arg`, from `// Call ctor`: `uz_ctor` and the return of `ptr`. -/
def zallocCtor (z : Zone) (ctorOk : Bool) (s : Uma) (ptr : Item) : Uma × Option Item :=
  if z.hasCtor && !ctorOk then (s.dropItem ptr, none)
  else ({ s with live := ptr :: s.live }, some ptr)

/-- `uma_zalloc_arg(zone, udata, flags)` on `cpu`, `uz_init` and `uz_ctor` succeeding or not as
`initOk` and `ctorOk` say. -/
def zallocArg (z : Zone) (cpu : ℕ) (initOk ctorOk : Bool) (s : Uma) : Uma × Option Item :=
  match cacheAlloc (s.caches cpu) with
  | some (ptr, rest) => zallocCtor z ctorOk { s with caches := Function.update s.caches cpu rest } ptr
  | none =>
      let ptr : Item := ⟨s.next, z.source⟩
      let s := { s with next := s.next + 1 }
      if z.hasInit && !initOk then (s.dropItem ptr, none) else zallocCtor z ctorOk s ptr

/-- `uma_zfree_arg(zone, item, udata)` on `cpu`. -/
def zfreeArg (z : Zone) (cpu : ℕ) (item : Option Item) (s : Uma) : Uma :=
  match item with
  | none => s
  | some item =>
      let s := { s with live := s.live.erase item }
      match cacheFree (s.caches cpu) item with
      | some cache => { s with caches := Function.update s.caches cpu cache }
      | none => { s with released := s.released ++ [(item, z.release)] }

end Uma

/-- A call on the zone. -/
inductive Op where
  /-- `uma_zalloc_arg` on `cpu` -/
  | zalloc (cpu : ℕ) (initOk ctorOk : Bool)
  /-- `uma_zfree_arg` on `cpu` of an item the caller holds -/
  | zfree (cpu : ℕ) (item : Item)
  deriving DecidableEq, Repr

/-- One call.  The caller frees only an item it holds. -/
def Uma.step (z : Zone) (s : Uma) : Op → Option Uma
  | .zalloc cpu initOk ctorOk => some (s.zallocArg z cpu initOk ctorOk).1
  | .zfree cpu item => if item ∈ s.live then some (s.zfreeArg z cpu (some item)) else none

/-- Every run of calls on zone `z` from the fresh zone. -/
def umaSystem (z : Zone) : System Uma Op := System.ofFun (· = Uma.init) (Uma.step z)

/-! ## What each call does -/

namespace Uma

variable {z : Zone} {s : Uma}

/-- An item some cache holds. -/
def Cached (s : Uma) (it : Item) : Prop := ∃ c, it ∈ s.caches c

/-- An item given back to an allocator. -/
def Released (s : Uma) (it : Item) : Prop := ∃ r, (it, r) ∈ s.released

/-- The state of the zone between calls. -/
structure Inv (z : Zone) (s : Uma) : Prop where
  /-- every item comes from the zone's allocator, and was produced before -/
  live : ∀ it ∈ s.live, it.source = z.source ∧ it.id < s.next
  cached : ∀ c, ∀ it ∈ s.caches c, it.source = z.source ∧ it.id < s.next
  /-- every item given back went to the deallocator `uma_zfree_arg` picks, or to `free()` after
  a failed `uz_init` or `uz_ctor` -/
  released : ∀ it r, (it, r) ∈ s.released →
    it.source = z.source ∧ it.id < s.next ∧ (r = z.release ∨ r = .free)
  /-- no cache grows past `max_size` -/
  bound : ∀ c, (s.caches c).length ≤ cacheMaxSize
  /-- an item is in one place at most, and there once -/
  liveNodup : s.live.Nodup
  cacheNodup : ∀ c, (s.caches c).Nodup
  releasedNodup : (s.released.map Prod.fst).Nodup
  liveCached : ∀ it ∈ s.live, ¬ s.Cached it
  liveReleased : ∀ it ∈ s.live, ¬ s.Released it
  cachedReleased : ∀ c, ∀ it ∈ s.caches c, ¬ s.Released it
  cacheApart : ∀ c d it, it ∈ s.caches c → it ∈ s.caches d → c = d

theorem inv_init : Inv z init where
  live _ h := by cases h
  cached _ _ h := by cases h
  released _ _ h := by cases h
  bound _ := Nat.zero_le _
  liveNodup := List.nodup_nil
  cacheNodup _ := List.nodup_nil
  releasedNodup := List.nodup_nil
  liveCached _ h := by cases h
  liveReleased _ h := by cases h
  cachedReleased _ _ h := by cases h
  cacheApart _ _ _ h := by cases h

/-- An item of the zone's allocator that nothing holds any more may be handed out: it is
consed onto the live items. -/
theorem Inv.handOut (h : Inv z s) {ptr : Item} (hsrc : ptr.source = z.source)
    (hlt : ptr.id < s.next) (hlive : ptr ∉ s.live) (hcached : ¬ s.Cached ptr)
    (hrel : ¬ s.Released ptr) : Inv z { s with live := ptr :: s.live } where
  live it hit := by
    rcases List.mem_cons.mp hit with rfl | hit
    · exact ⟨hsrc, hlt⟩
    · exact h.live it hit
  cached := h.cached
  released := h.released
  bound := h.bound
  liveNodup := List.nodup_cons.mpr ⟨hlive, h.liveNodup⟩
  cacheNodup := h.cacheNodup
  releasedNodup := h.releasedNodup
  liveCached it hit := by
    rcases List.mem_cons.mp hit with rfl | hit
    · exact hcached
    · exact h.liveCached it hit
  liveReleased it hit := by
    rcases List.mem_cons.mp hit with rfl | hit
    · exact hrel
    · exact h.liveReleased it hit
  cachedReleased := h.cachedReleased
  cacheApart := h.cacheApart

/-- An item that nothing holds may be given back, to the deallocator `uma_zfree_arg` picks or
to `free()`. -/
theorem Inv.giveBack (h : Inv z s) {ptr : Item} {r : Release} (hsrc : ptr.source = z.source)
    (hlt : ptr.id < s.next) (hr : r = z.release ∨ r = .free) (hlive : ptr ∉ s.live)
    (hcached : ¬ s.Cached ptr) (hrel : ¬ s.Released ptr) :
    Inv z { s with released := s.released ++ [(ptr, r)] } where
  live := h.live
  cached := h.cached
  released it r' hit := by
    rcases List.mem_append.mp hit with hit | hit
    · exact h.released it r' hit
    · cases List.mem_singleton.mp hit
      exact ⟨hsrc, hlt, hr⟩
  bound := h.bound
  liveNodup := h.liveNodup
  cacheNodup := h.cacheNodup
  releasedNodup := by
    rw [List.map_append, List.nodup_append]
    refine ⟨h.releasedNodup, List.nodup_singleton _, ?_⟩
    intro a ha b hb hab
    rw [List.map_singleton, List.mem_singleton] at hb
    obtain ⟨⟨it, r'⟩, hmem, rfl⟩ := List.mem_map.mp ha
    have hit : it = ptr := hab.trans hb
    exact hrel ⟨r', hit ▸ hmem⟩
  liveCached := h.liveCached
  liveReleased it hit := by
    rintro ⟨r', hr'⟩
    rcases List.mem_append.mp hr' with hr' | hr'
    · exact h.liveReleased it hit ⟨r', hr'⟩
    · cases List.mem_singleton.mp hr'
      exact hlive hit
  cachedReleased c it hit := by
    rintro ⟨r', hr'⟩
    rcases List.mem_append.mp hr' with hr' | hr'
    · exact h.cachedReleased c it hit ⟨r', hr'⟩
    · cases List.mem_singleton.mp hr'
      exact hcached ⟨c, hit⟩
  cacheApart := h.cacheApart

/-- A fresh item of the zone's allocator is held by nothing. -/
theorem Inv.fresh (h : Inv z s) :
    Inv z { s with next := s.next + 1 } ∧ (⟨s.next, z.source⟩ : Item) ∉ s.live ∧
      ¬ s.Cached ⟨s.next, z.source⟩ ∧ ¬ s.Released ⟨s.next, z.source⟩ := by
  refine ⟨⟨fun it hit => ?_, fun c it hit => ?_, fun it r hit => ?_, h.bound, h.liveNodup,
    h.cacheNodup, h.releasedNodup, h.liveCached, h.liveReleased, h.cachedReleased,
    h.cacheApart⟩, fun hit => ?_, fun ⟨c, hit⟩ => ?_, fun ⟨r, hit⟩ => ?_⟩
  · exact ⟨(h.live it hit).1, Nat.lt_succ_of_lt (h.live it hit).2⟩
  · exact ⟨(h.cached c it hit).1, Nat.lt_succ_of_lt (h.cached c it hit).2⟩
  · obtain ⟨hs, hlt, hr⟩ := h.released it r hit
    exact ⟨hs, Nat.lt_succ_of_lt hlt, hr⟩
  · exact Nat.lt_irrefl _ (h.live _ hit).2
  · exact Nat.lt_irrefl _ (h.cached c _ hit).2
  · exact Nat.lt_irrefl _ (h.released _ r hit).2.1

/-- `uz_ctor` and the return keep the invariant, for an item that nothing holds. -/
theorem Inv.zallocCtor (h : Inv z s) {ptr : Item} (hsrc : ptr.source = z.source)
    (hlt : ptr.id < s.next) (hlive : ptr ∉ s.live) (hcached : ¬ s.Cached ptr)
    (hrel : ¬ s.Released ptr) (ctorOk : Bool) : Inv z (zallocCtor z ctorOk s ptr).1 := by
  unfold Uma.zallocCtor
  split_ifs
  · exact h.giveBack hsrc hlt (.inr rfl) hlive hcached hrel
  · exact h.handOut hsrc hlt hlive hcached hrel

/-- An item popped from the cache of `cpu` is held by nothing else. -/
theorem Inv.pop (h : Inv z s) {cpu : ℕ} {ptr : Item} {rest : List Item}
    (hpop : s.caches cpu = ptr :: rest) :
    Inv z { s with caches := Function.update s.caches cpu rest } ∧ ptr ∉ s.live ∧
      ¬ Cached { s with caches := Function.update s.caches cpu rest } ptr ∧ ¬ s.Released ptr := by
  have hmem : ptr ∈ s.caches cpu := hpop ▸ List.mem_cons_self
  have hnd : (ptr :: rest).Nodup := hpop ▸ h.cacheNodup cpu
  have hrest : ∀ it ∈ rest, it ∈ s.caches cpu := fun it hit => hpop ▸ List.mem_cons_of_mem _ hit
  -- the caches after the pop hold nothing the caches before did not
  have hsub : ∀ c it, it ∈ Function.update s.caches cpu rest c → it ∈ s.caches c := by
    intro c it hit
    by_cases hc : c = cpu
    · subst hc
      rw [Function.update_self] at hit
      exact hrest it hit
    · rwa [Function.update_of_ne hc] at hit
  refine ⟨⟨h.live, fun c it hit => h.cached c it (hsub c it hit), h.released, fun c => ?_,
    h.liveNodup, fun c => ?_, h.releasedNodup, fun it hit ⟨c, hc⟩ => h.liveCached it hit
      ⟨c, hsub c it hc⟩, h.liveReleased, fun c it hit => h.cachedReleased c it (hsub c it hit),
    fun c d it hc hd => h.cacheApart c d it (hsub c it hc) (hsub d it hd)⟩,
    fun hlive => h.liveCached ptr hlive ⟨cpu, hmem⟩, fun ⟨c, hc⟩ => ?_,
    h.cachedReleased cpu ptr hmem⟩
  · dsimp only
    by_cases hc : c = cpu
    · subst hc
      have := h.bound c
      rw [hpop, List.length_cons] at this
      rw [Function.update_self]
      omega
    · rw [Function.update_of_ne hc]; exact h.bound c
  · dsimp only
    by_cases hc : c = cpu
    · subst hc
      rw [Function.update_self]
      exact (List.nodup_cons.mp hnd).2
    · rw [Function.update_of_ne hc]; exact h.cacheNodup c
  · -- the popped item was in the cache of `cpu` only, and once
    have hcpu : c = cpu := h.cacheApart c cpu ptr (hsub c ptr hc) hmem
    subst hcpu
    dsimp only at hc
    rw [Function.update_self] at hc
    exact (List.nodup_cons.mp hnd).1 hc

/-- **`uma_zalloc_arg` keeps the invariant.** -/
theorem Inv.zallocArg (h : Inv z s) (cpu : ℕ) (initOk ctorOk : Bool) :
    Inv z (s.zallocArg z cpu initOk ctorOk).1 := by
  unfold Uma.zallocArg
  cases hc : cacheAlloc (s.caches cpu) with
  | some p =>
      -- an item from the cache
      obtain ⟨ptr, rest⟩ := p
      have hpop : s.caches cpu = ptr :: rest := by
        cases hcache : s.caches cpu with
        | nil => rw [hcache] at hc; cases hc
        | cons a l => rw [hcache] at hc; cases hc; rfl
      obtain ⟨h', hlive, hcached, hrel⟩ := h.pop hpop
      have hmem : ptr ∈ s.caches cpu := hpop ▸ List.mem_cons_self
      exact h'.zallocCtor (h.cached cpu ptr hmem).1 (h.cached cpu ptr hmem).2 hlive hcached hrel
        ctorOk
  | none =>
      -- a fresh item from the zone's allocator
      obtain ⟨h', hlive, hcached, hrel⟩ := h.fresh
      dsimp only
      split_ifs
      · exact h'.giveBack rfl (Nat.lt_succ_self _) (.inr rfl) hlive hcached hrel
      · exact h'.zallocCtor rfl (Nat.lt_succ_self _) hlive hcached hrel ctorOk

/-- Taking a live item off the live list. -/
theorem Inv.erase (h : Inv z s) (item : Item) :
    Inv z { s with live := s.live.erase item } ∧ item ∉ s.live.erase item :=
  ⟨⟨fun it hit => h.live it (List.mem_of_mem_erase hit), h.cached, h.released, h.bound,
      h.liveNodup.erase item, h.cacheNodup, h.releasedNodup,
      fun it hit => h.liveCached it (List.mem_of_mem_erase hit),
      fun it hit => h.liveReleased it (List.mem_of_mem_erase hit), h.cachedReleased,
      h.cacheApart⟩,
    h.liveNodup.not_mem_erase⟩

/-- **`uma_zfree_arg` of a live item keeps the invariant.** -/
theorem Inv.zfreeArg (h : Inv z s) (cpu : ℕ) {item : Item} (hitem : item ∈ s.live) :
    Inv z (s.zfreeArg z cpu (some item)) := by
  obtain ⟨h', hgone⟩ := h.erase item
  have hsrc := h.live item hitem
  have hcached := h.liveCached item hitem
  have hrel := h.liveReleased item hitem
  unfold Uma.zfreeArg
  dsimp only
  cases hc : cacheFree (s.caches cpu) item with
  | some cache =>
      -- into the cache of `cpu`
      have hcache : cache = item :: s.caches cpu ∧ (s.caches cpu).length < cacheMaxSize := by
        unfold cacheFree at hc
        split_ifs at hc with hlen
        · exact ⟨(Option.some.inj hc).symm, hlen⟩
      obtain ⟨rfl, hlen⟩ := hcache
      dsimp only
      have hupd : ∀ c it, it ∈ Function.update s.caches cpu (item :: s.caches cpu) c →
          it = item ∧ c = cpu ∨ it ∈ s.caches c := by
        intro c it hit
        by_cases hcpu : c = cpu
        · subst hcpu
          rw [Function.update_self] at hit
          rcases List.mem_cons.mp hit with rfl | hit
          · exact .inl ⟨rfl, rfl⟩
          · exact .inr hit
        · rw [Function.update_of_ne hcpu] at hit
          exact .inr hit
      refine ⟨h'.live, fun c it hit => ?_, h.released, fun c => ?_, h'.liveNodup, fun c => ?_,
        h.releasedNodup, fun it hit ⟨c, hc'⟩ => ?_, h'.liveReleased, fun c it hit => ?_,
        fun c d it hc' hd => ?_⟩
      · rcases hupd c it hit with ⟨rfl, -⟩ | hit
        · exact hsrc
        · exact h.cached c it hit
      · dsimp only
        by_cases hcpu : c = cpu
        · subst hcpu
          rw [Function.update_self, List.length_cons]
          unfold cacheMaxSize at hlen ⊢
          omega
        · rw [Function.update_of_ne hcpu]; exact h.bound c
      · dsimp only
        by_cases hcpu : c = cpu
        · subst hcpu
          rw [Function.update_self]
          exact List.nodup_cons.mpr ⟨fun hin => hcached ⟨c, hin⟩, h.cacheNodup c⟩
        · rw [Function.update_of_ne hcpu]; exact h.cacheNodup c
      · rcases hupd c it hc' with ⟨rfl, -⟩ | hc'
        · exact hgone hit
        · exact h.liveCached it (List.mem_of_mem_erase hit) ⟨c, hc'⟩
      · rcases hupd c it hit with ⟨rfl, -⟩ | hit
        · exact hrel
        · exact h.cachedReleased c it hit
      · -- an item in two caches is the one pushed, or was in both before
        rcases hupd c it hc' with ⟨hi, hc1⟩ | hc1
        · rcases hupd d it hd with ⟨-, hd1⟩ | hd1
          · rw [hc1, hd1]
          · exact absurd ⟨d, hi ▸ hd1⟩ hcached
        · rcases hupd d it hd with ⟨hi, -⟩ | hd1
          · exact absurd ⟨c, hi ▸ hc1⟩ hcached
          · exact h.cacheApart c d it hc1 hd1
  | none =>
      -- the cache is full: to the deallocator of `effective_size`
      exact h'.giveBack hsrc.1 hsrc.2 (.inl rfl) hgone hcached hrel

theorem Inv.step (h : Inv z s) {op : Op} {t : Uma} (hstep : s.step z op = some t) : Inv z t := by
  cases op with
  | zalloc cpu initOk ctorOk =>
      cases hstep
      exact h.zallocArg cpu initOk ctorOk
  | zfree cpu item =>
      dsimp only [Uma.step] at hstep
      split_ifs at hstep with hitem
      cases hstep
      exact h.zfreeArg cpu hitem

/-- **Every reachable state of a zone keeps the invariant.** -/
theorem inv_reachable {t : Uma} (ht : Reachable (umaSystem z) t) : Inv z t :=
  Inductive.reachable (S := umaSystem z) ⟨fun _ h => h ▸ inv_init, fun _ _ _ h hst => h.step hst⟩
    ht

end Uma

/-! ## Two zones whose items go back to the wrong allocator -/

section Fill

variable (z : Zone)

/-- A block of calls that leaves one more item in the cache of cpu `0`: an item allocated on
cpu `1`, whose cache stays empty, and freed on cpu `0`. -/
def fillBlock (i : ℕ) : List Op := [.zalloc 1 true true, .zfree 0 ⟨i, z.source⟩]

/-- The zone after `k` blocks: the items `0 .. k - 1` in the cache of cpu `0`, the last on top. -/
def fillState (k : ℕ) : Uma :=
  ⟨Function.update (fun _ => []) 0 ((List.range k).reverse.map fun i => ⟨i, z.source⟩), [], k, []⟩

theorem fillState_zero : fillState z 0 = Uma.init := by
  simp only [fillState, List.range_zero, List.reverse_nil, List.map_nil, Uma.init]
  congr 1
  funext c
  by_cases hc : c = 0
  · rw [hc, Function.update_self]
  · rw [Function.update_of_ne hc]

/-- One block, while the cache of cpu `0` has room. -/
theorem fillBlock_run {k : ℕ} (hk : k < cacheMaxSize) :
    runFrom (Uma.step z) (fillState z k) (fillBlock z k) = some (fillState z (k + 1)) := by
  have hlen : ((List.range k).reverse.map fun i => (⟨i, z.source⟩ : Item)).length < cacheMaxSize := by
    rwa [List.length_map, List.length_reverse, List.length_range]
  simp only [fillBlock, runFrom_cons, Uma.step, Uma.zallocArg, fillState,
    Function.update_of_ne (show (1 : ℕ) ≠ 0 by decide), cacheAlloc, Bool.not_true, Bool.and_false,
    Bool.false_eq_true, if_false, Uma.zallocCtor, List.mem_cons, List.not_mem_nil, or_false,
    if_true, Option.bind_some, Uma.zfreeArg, List.erase_cons_head, Function.update_self,
    cacheFree, hlen, Function.update_idem, runFrom_nil]
  rw [List.range_succ, List.reverse_append, List.reverse_singleton, List.singleton_append,
    List.map_cons]

/-- `k` blocks from the fresh zone, up to a full cache. -/
theorem fill_run {k : ℕ} (hk : k ≤ cacheMaxSize) :
    runFrom (Uma.step z) Uma.init ((List.range k).flatMap (fillBlock z)) = some (fillState z k) := by
  induction k with
  | zero => rw [fillState_zero]; rfl
  | succ k ih =>
      rw [List.range_succ, List.flatMap_append, runFrom_append, ih (by omega), Option.bind_some,
        List.flatMap_singleton, fillBlock_run z (by omega)]

end Fill

/-- A `UMA_ZONE_REFCNT` zone of `4092`-byte items with a `uz_init`. -/
def refcntZone : Zone := ⟨4092, umaZoneRefcnt, true, false⟩

/-- A `UMA_ZONE_NOFREE` zone of `4092`-byte items. -/
def nofreeZone : Zone := ⟨4092, umaZoneNofree, false, false⟩

/-- The zone `nofreeZone` after `1001` blocks: the item `1000` went to `free_page()`. -/
theorem nofreeZone_run :
    runFrom (Uma.step nofreeZone) Uma.init
        ((List.range cacheMaxSize).flatMap (fillBlock nofreeZone) ++ fillBlock nofreeZone cacheMaxSize) =
      some { fillState nofreeZone cacheMaxSize with
        next := cacheMaxSize + 1, released := [(⟨1000, .malloc 4092⟩, .freePage)] } := by
  have hsrc : nofreeZone.source = .malloc 4092 := by decide
  have hrel : nofreeZone.release = .freePage := by decide
  have hlen : ¬ ((List.range cacheMaxSize).reverse.map
      fun i => (⟨i, Source.malloc 4092⟩ : Item)).length < cacheMaxSize := by
    rw [List.length_map, List.length_reverse, List.length_range]
    exact Nat.lt_irrefl _
  rw [runFrom_append, fill_run nofreeZone (Nat.le_refl cacheMaxSize), Option.bind_some]
  -- the cache of cpu `0` is full: the last free goes to the deallocator of `effective_size`
  simp only [fillBlock, runFrom_cons, Uma.step, Uma.zallocArg, fillState, hsrc, hrel,
    Function.update_of_ne (show (1 : ℕ) ≠ 0 by decide), cacheAlloc, Bool.not_true,
    Bool.and_false, Bool.false_eq_true, if_false, Uma.zallocCtor, List.mem_cons,
    List.not_mem_nil, or_false, if_true, Option.bind_some, Uma.zfreeArg, List.erase_cons_head,
    Function.update_self, cacheFree, hlen, runFrom_nil]
  rfl

/-- **Items go back to the wrong allocator.**  In `refcntZone` the size with the header is
`PAGE_SIZE`: a call whose `uz_init` fails gets a page from `alloc_page()` and gives it to
`free()`.  In `nofreeZone`, `uma_zalloc_arg` adds no header and gets its items from
`malloc(4092)`, while `uma_zfree_arg` adds it: once the cache of cpu `0` is full, after `1000`
frees, the next item freed there goes to `free_page()`. -/
theorem uma_zone_release_mismatch :
    (∃ s, Reachable (umaSystem refcntZone) s ∧ (⟨0, .allocPage⟩, .free) ∈ s.released) ∧
      (∃ s, Reachable (umaSystem nofreeZone) s ∧ (⟨1000, .malloc 4092⟩, .freePage) ∈ s.released) ∧
      Source.allocPage.matches .free = false ∧ (Source.malloc 4092).matches .freePage = false :=
  ⟨⟨_, .step (.init rfl) (show Uma.init.step refcntZone (.zalloc 0 false true) = some _ from rfl),
      by decide⟩,
    ⟨_, reachable_of_runFrom (.init rfl) nofreeZone_run, List.mem_singleton_self _⟩, rfl, rfl⟩

end Osv.Bsd
