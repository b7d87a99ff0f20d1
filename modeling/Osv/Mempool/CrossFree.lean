import Osv.Lib.Runs
import Osv.Lockfree.Ring
import Osv.Mempool.PoolAlloc

/-!
# Objects freed on another cpu: `free_different_cpu` and `free_worker_fn`

`pool::free(obj)` on a cpu `c` other than the cpu `o` whose pool owns `obj` (`core/mempool.cc`)
calls `free_different_cpu`, which pushes `obj` on `pcpu_free_list[o][c]`, a
`ring_spsc<void*, 256>` that only cpu `c` pushes on, with preemption off.  When that ring is
full it takes the slow path.  With preemption back on, it takes `freelist_full_sync[o]._mtx`
and waits until `_free_obj` is null.  It then pushes again, on the ring of the cpu it runs on
by then, and if that ring is full too it puts `obj` in `_free_obj`.  The worker item
`free_worker_fn`, pinned to `o`, pops every ring and hands what it pops to `free_same_cpu`.
It then takes `_free_obj` under `_mtx` and frees that too.

**The model** (`CrossState`, `CrossOp`).  The state is the pool on `o` (the `PoolState` of
`Mempool.PoolAlloc`), the rings, `_free_obj`, and the objects of the threads in the slow path:
those still waiting, and the one past its wait that holds `_mtx`.  As a ghost it also keeps
the objects the users hold.  Each call is one step: a user's `alloc` or same-cpu `free` on
`o`, the fast path of a free on `c`, the slow path's wait and its push, and the worker's pops
and its take of `_free_obj`.  Preemption off and `_mtx` make each of these atomic, and the
worker's loop is any sequence of its pops.

**What holds** (`inv_reachable`).  In every reachable state, the objects handed out are, each
once, those the users hold, those in the rings, `_free_obj`, and those of the slow path
(`Inv.conserve`).  None of them is on a page's `local_free` (`handedOut_not_mem_localFree`).
`_free_obj` is null while a thread holds `_mtx` past its wait, so it is filled only while it
is null (`freeObj_filled_while_null`).

**What does not** (`cross_free_lost_after_wrap`).  `ring_spsc::pop` compares `_begin` and
`_end` as numbers.  Let `2 ^ 32` objects go through `pcpu_free_list[o][c]`, each popped by
the worker.  Then `_end` wraps to `0` while `_begin` is `2 ^ 32 - 1`.  The object pushed last
stays in the ring: no run of the worker ever pops it, and it never goes back to its page.
-/

namespace Osv.Mempool

open Transition Osv.Lockfree Function

/-- `sched::max_cpus` -/
def maxCpus : ℕ := 64

/-- The hand-off of the objects of the pool on one cpu `o`. -/
structure CrossState where
  pool : PoolState
  /-- `pcpu_free_list[o][c]`, by the freeing cpu `c` -/
  freeList : ℕ → RingSpsc ℕ 256
  /-- `freelist_full_sync[o]._free_obj` -/
  freeObj : Option ℕ
  /-- the objects of the threads of the slow path waiting for `_mtx` and a null `_free_obj` -/
  waiting : List ℕ
  /-- the object of the thread holding `_mtx` past its wait -/
  holder : Option ℕ
  /-- the objects handed out that the users hold -/
  users : List ℕ

/-- One step of a cpu. -/
inductive CrossOp where
  /-- `pool::alloc()` on `o`, with the page `untracked_alloc_page()` would return -/
  | alloc (page : ℕ)
  /-- `pool::free(obj)` on `o`: `free_same_cpu` -/
  | freeSame (obj : ℕ)
  /-- `pool::free(obj)` on the cpu `c`: the push of `free_different_cpu`, and on a full ring the
  slow path entered -/
  | freeDifferent (c obj : ℕ)
  /-- a thread of the slow path takes `_mtx` and finds `_free_obj` null -/
  | lockSync (obj : ℕ)
  /-- the thread holding `_mtx`, running on cpu `c`, pushes again or fills `_free_obj` -/
  | pushSync (c : ℕ)
  /-- `free_worker_fn` pops `pcpu_free_list[o][i]` and frees what it popped -/
  | drain (i : ℕ)
  /-- `free_worker_fn` takes `_free_obj` under `_mtx` and frees it -/
  | drainSync
  deriving DecidableEq, Repr

namespace CrossState

/-- Nothing allocated, the rings empty with their cells zero (`pcpu_free_list` is static), and
no thread in the slow path. -/
def init : CrossState := ⟨PoolState.init, fun _ => RingSpsc.init fun _ => 0, none, [], none, []⟩

/-- The objects in the rings of the cpus below `max_cpus`. -/
def inRings (freeList : ℕ → RingSpsc ℕ 256) : List ℕ :=
  (List.range maxCpus).flatMap fun c => (freeList c).contents

/-- Where the objects handed out are: with the users, in a ring, in `_free_obj`, or with a
thread of the slow path. -/
def handedOut (s : CrossState) : List ℕ :=
  s.users ++ inRings s.freeList ++ s.freeObj.toList ++ s.waiting ++ s.holder.toList

variable (pool : Pool) (o : ℕ)

/-- One step.  A user frees only an object it holds; `mempool_cpuid()` is below `max_cpus`. -/
def step (s : CrossState) : CrossOp → Option CrossState
  | .alloc page =>
    if s.pool.free ≠ [] ∨ s.pool.Fresh page then
      (s.pool.alloc pool page).map fun r => { s with pool := r.1, users := r.2 :: s.users }
    else none
  | .freeSame obj =>
    if obj ∈ s.users then
      some { s with pool := (s.pool.freeSameCpu obj).1, users := s.users.erase obj }
    else none
  | .freeDifferent c obj =>
    if obj ∈ s.users ∧ c < maxCpus ∧ c ≠ o then
      match (s.freeList c).push obj with
      | (true, r) => some { s with freeList := update s.freeList c r, users := s.users.erase obj }
      | (false, _) => some { s with waiting := obj :: s.waiting, users := s.users.erase obj }
    else none
  | .lockSync obj =>
    if obj ∈ s.waiting ∧ s.holder = none ∧ s.freeObj = none then
      some { s with waiting := s.waiting.erase obj, holder := some obj }
    else none
  | .pushSync c =>
    match s.holder with
    | none => none
    | some obj =>
      if c < maxCpus then
        match (s.freeList c).push obj with
        | (true, r) => some { s with freeList := update s.freeList c r, holder := none }
        | (false, _) => some { s with freeObj := some obj, holder := none }
      else none
  | .drain i =>
    if i < maxCpus then
      match (s.freeList i).pop with
      | (some obj, r) =>
        some { s with freeList := update s.freeList i r, pool := (s.pool.freeSameCpu obj).1 }
      | (none, _) => none
    else none
  | .drainSync =>
    if s.holder = none then
      match s.freeObj with
      | none => some s
      | some obj => some { s with freeObj := none, pool := (s.pool.freeSameCpu obj).1 }
    else none

end CrossState

/-- Every interleaving of the calls on the pool on `o` and of its worker. -/
def crossSystem (pool : Pool) (o : ℕ) : System CrossState CrossOp :=
  System.ofFun (· = CrossState.init) (CrossState.step pool o)

/-! ## The rings as lists -/

namespace CrossState

theorem push_contents_of_true {r r' : RingSpsc ℕ 256} {a : ℕ} (h : r.push a = (true, r')) :
    r'.contents = r.contents ++ [a] := by
  by_cases hfull : 256 ≤ r.size.toNat
  · rw [RingSpsc.push_of_full hfull] at h
    cases h
  · have hc := (RingSpsc.contents_push a (Nat.lt_of_not_le hfull) (by norm_num) (by norm_num)).1
    rw [h] at hc
    exact hc

theorem pop_contents_of_some {r r' : RingSpsc ℕ 256} {a : ℕ} (h : r.pop = (some a, r')) :
    r.contents = a :: r'.contents := by
  by_cases hle : r.endIdx ≤ r.beginIdx
  · rw [RingSpsc.pop_of_le hle] at h
    cases h
  · have hlt := UInt32.not_le.mp hle
    have hc := RingSpsc.contents_pop hlt
    rw [RingSpsc.pop_of_lt hlt] at h hc
    simp only [Prod.mk.injEq, Option.some.injEq] at h
    obtain ⟨rfl, rfl⟩ := h
    exact hc

/-- Replacing the ring of `c` trades its contents for the new ones. -/
theorem inRings_update (f : ℕ → RingSpsc ℕ 256) {c : ℕ} (hc : c < maxCpus)
    (r : RingSpsc ℕ 256) :
    (inRings (update f c r) ++ (f c).contents).Perm (r.contents ++ inRings f) := by
  have hf : (fun c' => (update f c r c').contents) =
      update (fun c' => (f c').contents) c r.contents := by
    funext c'
    by_cases h : c' = c
    · subst h
      simp
    · simp [h]
  have h := Runs.flatMap_update_perm List.nodup_range (List.mem_range.mpr hc)
    (fun c' => (f c').contents) r.contents
  simpa only [inRings, hf] using h

theorem inRings_push (f : ℕ → RingSpsc ℕ 256) {c a : ℕ} (hc : c < maxCpus)
    {r : RingSpsc ℕ 256} (hr : r.contents = (f c).contents ++ [a]) :
    (inRings (update f c r)).Perm (a :: inRings f) := by
  have h := inRings_update f hc r
  rw [hr, List.append_assoc] at h
  exact (List.perm_append_right_iff _).mp (h.trans List.perm_append_comm)

theorem inRings_pop (f : ℕ → RingSpsc ℕ 256) {c a : ℕ} (hc : c < maxCpus)
    {r : RingSpsc ℕ 256} (hr : (f c).contents = a :: r.contents) :
    (a :: inRings (update f c r)).Perm (inRings f) := by
  have h := inRings_update f hc r
  rw [hr] at h
  exact (List.perm_append_right_iff _).mp
    (List.perm_middle.symm.trans (h.trans List.perm_append_comm))

theorem count_handedOut (s : CrossState) (a : ℕ) :
    s.handedOut.count a = s.users.count a + (inRings s.freeList).count a + s.freeObj.toList.count a +
      s.waiting.count a + s.holder.toList.count a := by
  simp only [handedOut, List.count_append]

end CrossState

/-! ## The invariant -/

namespace CrossState

variable {pool : Pool} {o : ℕ} {s t : CrossState}

/-- **The invariant of the hand-off.** -/
structure Inv (pool : Pool) (s : CrossState) : Prop where
  /-- the pool's pages are kept as `Mempool.PoolAlloc` has it -/
  pool : PoolState.Inv pool s.pool
  /-- each object handed out is in exactly one place -/
  conserve : s.pool.allocated.Perm s.handedOut
  /-- `_free_obj` is null while a thread holds `_mtx` past its wait -/
  mutex : s.holder ≠ none → s.freeObj = none

theorem inv_init : Inv pool init where
  pool := PoolState.inv_init
  conserve := by
    simp [init, handedOut, inRings, RingSpsc.contents, RingSpsc.init, RingSpsc.size,
      PoolState.init]
  mutex h := (h rfl).elim

theorem Inv.mem_allocated (hinv : s.Inv pool) {a : ℕ} (ha : a ∈ s.handedOut) :
    a ∈ s.pool.allocated :=
  hinv.conserve.symm.subset ha

/-! ### Conservation, by the three shapes of a step -/

/-- The pool hands an object out to the users. -/
theorem conserve_give (hinv : s.Inv pool) {a : ℕ} (hp : t.pool.allocated = a :: s.pool.allocated)
    (hh : t.handedOut.Perm (a :: s.handedOut)) : t.pool.allocated.Perm t.handedOut := by
  rw [hp]
  exact (hinv.conserve.cons a).trans hh.symm

/-- An object moves from one place to another. -/
theorem conserve_move (hinv : s.Inv pool) (hp : t.pool.allocated = s.pool.allocated)
    (hh : t.handedOut.Perm s.handedOut) : t.pool.allocated.Perm t.handedOut := by
  rw [hp]
  exact hinv.conserve.trans hh.symm

/-- An object goes back to the pool. -/
theorem conserve_take (hinv : s.Inv pool) {a : ℕ}
    (hp : t.pool.allocated = s.pool.allocated.erase a) (hh : s.handedOut.Perm (a :: t.handedOut)) :
    t.pool.allocated.Perm t.handedOut := by
  rw [hp]
  simpa using (hinv.conserve.trans hh).erase a

/-- Taking `a` off a list that holds it leaves one `a` fewer. -/
theorem count_erase_of_mem {l : List ℕ} {a : ℕ} (ha : a ∈ l) (b : ℕ) :
    (l.erase a).count b + (if a = b then 1 else 0) = l.count b := by
  have h := (List.perm_cons_erase ha).count_eq b
  rw [List.count_cons] at h
  simp only [beq_iff_eq] at h
  omega

/-! ### Each step keeps the invariant -/

theorem Inv.step_alloc (hinv : s.Inv pool) {page : ℕ} (h : s.step pool o (.alloc page) = some t) :
    t.Inv pool := by
  simp only [step] at h
  split_ifs at h with hpage
  obtain ⟨⟨p, a⟩, ha, rfl⟩ := Option.map_eq_some_iff.mp h
  obtain ⟨p', a', ha', hinvp, -⟩ := hinv.pool.alloc hpage
  rw [ha, Option.some.injEq, Prod.mk.injEq] at ha'
  obtain ⟨rfl, rfl⟩ := ha'
  exact ⟨hinvp, conserve_give hinv (PoolState.alloc_allocated ha) (List.Perm.refl _), hinv.mutex⟩

theorem Inv.step_freeSame (hinv : s.Inv pool) {obj : ℕ}
    (h : s.step pool o (.freeSame obj) = some t) : t.Inv pool := by
  simp only [step] at h
  split_ifs at h with hobj
  cases h
  have ha : obj ∈ s.pool.allocated := hinv.mem_allocated (by simp [handedOut, hobj])
  obtain ⟨hd, hpage⟩ := Option.ne_none_iff_exists'.mp (hinv.pool.allocatedOwned obj ha)
  refine ⟨(hinv.pool.freeSameCpu ha).1,
    conserve_take hinv (PoolState.freeSameCpu_allocated hpage) ?_, hinv.mutex⟩
  refine List.perm_iff_count.mpr fun b => ?_
  have hu := count_erase_of_mem hobj b
  simp only [count_handedOut, List.count_cons, beq_iff_eq] at hu ⊢
  split_ifs at hu ⊢ <;> omega

theorem Inv.step_freeDifferent (hinv : s.Inv pool) {c obj : ℕ}
    (h : s.step pool o (.freeDifferent c obj) = some t) : t.Inv pool := by
  simp only [step] at h
  split_ifs at h with hc
  obtain ⟨hobj, hmax, -⟩ := hc
  rcases hpush : (s.freeList c).push obj with ⟨_ | _, r⟩
  · -- the ring is full: the object goes with the thread into the slow path
    simp only [hpush, Option.some.injEq] at h
    subst h
    refine ⟨hinv.pool, conserve_move hinv rfl (List.perm_iff_count.mpr fun b => ?_), hinv.mutex⟩
    have hu := count_erase_of_mem hobj b
    simp only [count_handedOut, List.count_cons, beq_iff_eq] at hu ⊢
    split_ifs at hu ⊢ <;> omega
  · -- the object goes into the ring of `c`
    simp only [hpush, Option.some.injEq] at h
    subst h
    have hr := (inRings_push s.freeList hmax (push_contents_of_true hpush)).count_eq
    refine ⟨hinv.pool, conserve_move hinv rfl (List.perm_iff_count.mpr fun b => ?_), hinv.mutex⟩
    have hu := count_erase_of_mem hobj b
    simp only [count_handedOut, hr, List.count_cons, beq_iff_eq] at hu ⊢
    split_ifs at hu ⊢ <;> omega

theorem Inv.step_lockSync (hinv : s.Inv pool) {obj : ℕ}
    (h : s.step pool o (.lockSync obj) = some t) : t.Inv pool := by
  simp only [step] at h
  split_ifs at h with hc
  obtain ⟨hobj, hfree, hnull⟩ := hc
  cases h
  refine ⟨hinv.pool, conserve_move hinv rfl (List.perm_iff_count.mpr fun b => ?_),
    fun _ => hnull⟩
  have hw := count_erase_of_mem hobj b
  simp only [count_handedOut, hfree, Option.toList_some, Option.toList_none, List.count_nil,
    List.count_singleton, beq_iff_eq] at hw ⊢
  split_ifs at hw ⊢ <;> omega

theorem Inv.step_pushSync (hinv : s.Inv pool) {c : ℕ} (h : s.step pool o (.pushSync c) = some t) :
    t.Inv pool := by
  simp only [step] at h
  rcases hhold : s.holder with _ | obj
  · simp only [hhold] at h
    cases h
  · simp only [hhold] at h
    split_ifs at h with hmax
    have hnull : s.freeObj = none := hinv.mutex (by simp [hhold])
    rcases hpush : (s.freeList c).push obj with ⟨_ | _, r⟩
    · -- the ring of the cpu it runs on is full too: `_free_obj`, null, takes the object
      simp only [hpush, Option.some.injEq] at h
      subst h
      refine ⟨hinv.pool, conserve_move hinv rfl (List.perm_iff_count.mpr fun b => ?_),
        fun h => (h rfl).elim⟩
      simp only [count_handedOut, hhold, hnull, Option.toList_some, Option.toList_none]
      omega
    · simp only [hpush, Option.some.injEq] at h
      subst h
      have hr := (inRings_push s.freeList hmax (push_contents_of_true hpush)).count_eq
      refine ⟨hinv.pool, conserve_move hinv rfl (List.perm_iff_count.mpr fun b => ?_),
        fun h => (h rfl).elim⟩
      simp only [count_handedOut, hhold, hr, Option.toList_some, Option.toList_none,
        List.count_cons, List.count_nil]
      omega

theorem Inv.step_drain (hinv : s.Inv pool) {i : ℕ} (h : s.step pool o (.drain i) = some t) :
    t.Inv pool := by
  simp only [step] at h
  split_ifs at h with hmax
  rcases hpop : (s.freeList i).pop with ⟨_ | obj, r⟩
  · simp only [hpop] at h
    cases h
  · simp only [hpop, Option.some.injEq] at h
    subst h
    have hr := inRings_pop s.freeList hmax (pop_contents_of_some hpop)
    have ha : obj ∈ s.pool.allocated :=
      hinv.mem_allocated (by simp [handedOut, hr.subset List.mem_cons_self])
    obtain ⟨hd, hpage⟩ := Option.ne_none_iff_exists'.mp (hinv.pool.allocatedOwned obj ha)
    refine ⟨(hinv.pool.freeSameCpu ha).1, conserve_take hinv (PoolState.freeSameCpu_allocated hpage)
      (List.perm_iff_count.mpr fun b => ?_), hinv.mutex⟩
    have hc := hr.count_eq b
    simp only [count_handedOut, List.count_cons, beq_iff_eq] at hc ⊢
    split_ifs at hc ⊢ <;> omega

theorem Inv.step_drainSync (hinv : s.Inv pool) (h : s.step pool o .drainSync = some t) :
    t.Inv pool := by
  simp only [step] at h
  split_ifs at h with hfree
  rcases hobj : s.freeObj with _ | obj
  · simp only [hobj, Option.some.injEq] at h
    subst h
    exact hinv
  · simp only [hobj, Option.some.injEq] at h
    subst h
    have ha : obj ∈ s.pool.allocated := hinv.mem_allocated (by simp [handedOut, hobj])
    obtain ⟨hd, hpage⟩ := Option.ne_none_iff_exists'.mp (hinv.pool.allocatedOwned obj ha)
    refine ⟨(hinv.pool.freeSameCpu ha).1, conserve_take hinv (PoolState.freeSameCpu_allocated hpage)
      (List.perm_iff_count.mpr fun b => ?_), fun _ => rfl⟩
    simp only [count_handedOut, hobj, Option.toList_some, Option.toList_none, List.count_cons,
      List.count_nil, beq_iff_eq]
    split_ifs <;> omega

theorem Inv.step (hinv : s.Inv pool) {op : CrossOp} (h : s.step pool o op = some t) : t.Inv pool := by
  cases op with
  | alloc page => exact hinv.step_alloc h
  | freeSame obj => exact hinv.step_freeSame h
  | freeDifferent c obj => exact hinv.step_freeDifferent h
  | lockSync obj => exact hinv.step_lockSync h
  | pushSync c => exact hinv.step_pushSync h
  | drain i => exact hinv.step_drain h
  | drainSync => exact hinv.step_drainSync h

/-- **Every reachable state keeps the invariant.** -/
theorem inv_reachable (hs : Reachable (crossSystem pool o) s) : s.Inv pool :=
  Inductive.reachable (S := crossSystem pool o)
    ⟨fun _ h => h ▸ inv_init, fun _ _ _ h hst => h.step hst⟩ hs

/-! ### What the invariant gives -/

/-- **Each object handed out is in exactly one place**, and none of them is free on its page. -/
theorem handedOut_nodup (hs : Reachable (crossSystem pool o) s) : s.handedOut.Nodup :=
  (inv_reachable hs).conserve.nodup_iff.mp (inv_reachable hs).pool.allocatedNodup

theorem handedOut_not_mem_localFree (hs : Reachable (crossSystem pool o) s) {page : ℕ}
    {h : PageHeader} (hpage : s.pool.headers page = some h) {x : ℕ} (hx : x ∈ h.localFree) :
    x ∉ s.handedOut := fun hh =>
  ((inv_reachable hs).pool.mem_localFree hpage hx).2 ((inv_reachable hs).mem_allocated hh)

/-- What a step does to `_free_obj`: nothing, empties it, or fills it from the thread holding
`_mtx`. -/
theorem step_freeObj {op : CrossOp} (h : s.step pool o op = some t) :
    t.freeObj = s.freeObj ∨ t.freeObj = none ∨ s.holder ≠ none := by
  cases op with
  | alloc page =>
    simp only [step] at h
    split_ifs at h
    obtain ⟨_, _, rfl⟩ := Option.map_eq_some_iff.mp h
    exact .inl rfl
  | freeSame obj =>
    simp only [step] at h
    split_ifs at h
    cases h
    exact .inl rfl
  | freeDifferent c obj =>
    simp only [step] at h
    split_ifs at h
    rcases hpush : (s.freeList c).push obj with ⟨_ | _, r⟩ <;>
      simp only [hpush, Option.some.injEq] at h <;> subst h <;> exact .inl rfl
  | lockSync obj =>
    simp only [step] at h
    split_ifs at h
    cases h
    exact .inl rfl
  | pushSync c =>
    rcases hhold : s.holder with _ | obj
    · simp only [step, hhold] at h
      cases h
    · exact .inr (.inr (by simp))
  | drain i =>
    simp only [step] at h
    split_ifs at h
    rcases hpop : (s.freeList i).pop with ⟨_ | obj, r⟩
    · simp only [hpop] at h
      cases h
    · simp only [hpop, Option.some.injEq] at h
      subst h
      exact .inl rfl
  | drainSync =>
    simp only [step] at h
    split_ifs at h
    rcases hobj : s.freeObj with _ | obj <;> simp only [hobj, Option.some.injEq] at h <;> subst h
    · exact .inr (.inl hobj)
    · exact .inr (.inl rfl)

/-- **`_free_obj` is filled only while it is null.** -/
theorem freeObj_filled_while_null (hs : Reachable (crossSystem pool o) s) {op : CrossOp}
    (h : s.step pool o op = some t) (hfill : t.freeObj ≠ none) (hne : t.freeObj ≠ s.freeObj) :
    s.freeObj = none := by
  rcases step_freeObj h with h' | h' | h'
  · exact absurd h' hne
  · exact absurd h' hfill
  · exact (inv_reachable hs).mutex h'

/-- What a step does to the rings: nothing, a push on one of them, or a pop. -/
theorem step_freeList {op : CrossOp} (h : s.step pool o op = some t) :
    t.freeList = s.freeList ∨
      (∃ c a b r, (s.freeList c).push a = (b, r) ∧ t.freeList = update s.freeList c r) ∨
      (∃ i a r, (s.freeList i).pop = (some a, r) ∧ t.freeList = update s.freeList i r) := by
  cases op with
  | alloc page =>
    simp only [step] at h
    split_ifs at h
    obtain ⟨_, _, rfl⟩ := Option.map_eq_some_iff.mp h
    exact .inl rfl
  | freeSame obj =>
    simp only [step] at h
    split_ifs at h
    cases h
    exact .inl rfl
  | freeDifferent c obj =>
    simp only [step] at h
    split_ifs at h
    rcases hpush : (s.freeList c).push obj with ⟨_ | _, r⟩ <;>
      simp only [hpush, Option.some.injEq] at h <;> subst h
    · exact .inl rfl
    · exact .inr (.inl ⟨c, obj, true, r, hpush, rfl⟩)
  | lockSync obj =>
    simp only [step] at h
    split_ifs at h
    cases h
    exact .inl rfl
  | pushSync c =>
    rcases hhold : s.holder with _ | obj
    · simp only [step, hhold] at h
      cases h
    · simp only [step, hhold] at h
      split_ifs at h
      rcases hpush : (s.freeList c).push obj with ⟨_ | _, r⟩ <;>
        simp only [hpush, Option.some.injEq] at h <;> subst h
      · exact .inl rfl
      · exact .inr (.inl ⟨c, obj, true, r, hpush, rfl⟩)
  | drain i =>
    simp only [step] at h
    split_ifs at h
    rcases hpop : (s.freeList i).pop with ⟨_ | obj, r⟩
    · simp only [hpop] at h
      cases h
    · simp only [hpop, Option.some.injEq] at h
      subst h
      exact .inr (.inr ⟨i, obj, r, hpop, rfl⟩)
  | drainSync =>
    simp only [step] at h
    split_ifs at h
    rcases hobj : s.freeObj with _ | obj <;> simp only [hobj, Option.some.injEq] at h <;>
      subst h <;> exact .inl rfl

/-! ## Past the wrap -/

/-- `_end` is behind `_begin` as numbers, and `x` is in the ring. -/
def Stuck (x : ℕ) (r : RingSpsc ℕ 256) : Prop := r.endIdx < r.beginIdx ∧ x ∈ r.contents

theorem Stuck.push {x a : ℕ} {r r' : RingSpsc ℕ 256} {b : Bool} (h : Stuck x r)
    (hpush : r.push a = (b, r')) : Stuck x r' := by
  by_cases hfull : 256 ≤ r.size.toNat
  · rw [RingSpsc.push_of_full hfull, Prod.mk.injEq] at hpush
    rw [← hpush.2]
    exact h
  · cases b
    · rw [RingSpsc.push_of_lt (Nat.lt_of_not_le hfull)] at hpush
      cases hpush
    · have hw := RingSpsc.push_wrapped a h.1 (by norm_num)
      rw [hpush] at hw
      exact ⟨hw, by rw [push_contents_of_true hpush]; exact List.mem_append_left _ h.2⟩

/-- **No step takes a stuck object out of its ring**: the worker's pop fails there, and pushes
keep `_end` behind. -/
theorem Stuck.step {c x : ℕ} (hst : Stuck x (s.freeList c)) {op : CrossOp}
    (h : s.step pool o op = some t) : Stuck x (t.freeList c) := by
  rcases step_freeList h with h' | ⟨c', a, b, r, hpush, h'⟩ | ⟨i, a, r, hpop, h'⟩
  · rw [h']
    exact hst
  · rw [h']
    by_cases hc : c = c'
    · subst hc
      rw [update_self]
      exact hst.push hpush
    · rw [update_of_ne hc]
      exact hst
  · rw [h']
    by_cases hc : c = i
    · subst hc
      rw [RingSpsc.pop_of_wrapped hst.1] at hpop
      cases hpop
    · rw [update_of_ne hc]
      exact hst

theorem Stuck.exec {c x : ℕ} {ops : List CrossOp} (hst : Stuck x (s.freeList c))
    (h : Exec (crossSystem pool o) s ops t) : Stuck x (t.freeList c) :=
  h.preserves (I := fun s => Stuck x (s.freeList c)) (fun _ _ _ hs hst => hs.step hst) hst

/-! ### `2 ^ 32` objects through one ring -/

section Wrap

variable {c page x : ℕ} {tail : List ℕ}

/-- The first object of a fresh page with more than one object, handed out and given back,
leaves the pool as it was. -/
theorem alloc_freeSameCpu_init (hpage : pageSize ∣ page) (hsplit : pool.addPage page = x :: tail)
    (htail : tail ≠ []) :
    ∃ p, PoolState.init.alloc pool page = some (p, x) ∧ (p.freeSameCpu x).1 = PoolState.init := by
  have hx : toHeader x = page := toHeader_addPage hpage (hsplit ▸ List.mem_cons_self)
  refine ⟨⟨update (fun _ => none) page (some ⟨1, tail⟩), [page], [x]⟩, ?_, ?_⟩
  · simp [PoolState.alloc, PoolState.init, PoolState.addPage, PoolState.take, hsplit, htail]
  · simp only [PoolState.freeSameCpu, hx, update_self, PoolState.haveFullPages]
    simp [htail, PoolState.init]

/-- The ring of `c` after `k` objects went through it, its cells as they were left. -/
def wrapState (c k : ℕ) (cells : Fin 256 → ℕ) : CrossState :=
  { init with freeList := update init.freeList c ⟨UInt32.ofNat k, UInt32.ofNat k, cells⟩ }

theorem push_wrapState {k : ℕ} (hk : k < 2 ^ 32) (cells : Fin 256 → ℕ) (a : ℕ) :
    (⟨UInt32.ofNat k, UInt32.ofNat k, cells⟩ : RingSpsc ℕ 256).push a =
      (true, ⟨UInt32.ofNat k, UInt32.ofNat k + 1, update cells (Ring.slot 256 k) a⟩) := by
  rw [RingSpsc.push_of_lt (by simp [RingSpsc.size]), toNat_ofNat_of_lt hk]

/-- `alloc` on the empty pool hands out the first object of the page. -/
theorem step_alloc_wrapState {p : PoolState} (hpage : pageSize ∣ page) (hpos : 0 < page)
    (halloc : PoolState.init.alloc pool page = some (p, x)) (k : ℕ) (cells : Fin 256 → ℕ) :
    (wrapState c k cells).step pool o (.alloc page) =
      some { wrapState c k cells with pool := p, users := [x] } := by
  simp only [step]
  rw [if_pos (.inr ⟨hpage, hpos, rfl⟩)]
  simp only [wrapState, init, halloc, Option.map_some]

/-- `free` on `c` pushes the object on the ring of `c`. -/
theorem step_freeDifferent_wrapState {p : PoolState} (hc : c < maxCpus) (hco : c ≠ o) {k : ℕ}
    (hk : k < 2 ^ 32) (cells : Fin 256 → ℕ) :
    ({ wrapState c k cells with pool := p, users := [x] } : CrossState).step pool o
        (.freeDifferent c x) =
      some { wrapState c k cells with
        pool := p
        freeList := update (wrapState c k cells).freeList c
          ⟨UInt32.ofNat k, UInt32.ofNat k + 1, update cells (Ring.slot 256 k) x⟩ } := by
  simp only [step]
  rw [if_pos ⟨List.mem_singleton_self x, hc, hco⟩]
  simp only [wrapState, update_self, push_wrapState hk, List.erase_cons_head]
  rfl

/-- One object through the ring of `c`: handed out, freed on `c`, popped by the worker and given
back to its page. -/
theorem reachable_wrapState_succ (hc : c < maxCpus) (hco : c ≠ o) (hpage : pageSize ∣ page)
    (hpos : 0 < page) (hsplit : pool.addPage page = x :: tail) (htail : tail ≠ []) {k : ℕ}
    (hk : k < 2 ^ 32 - 1) {cells : Fin 256 → ℕ}
    (hs : Reachable (crossSystem pool o) (wrapState c k cells)) :
    Reachable (crossSystem pool o) (wrapState c (k + 1) (update cells (Ring.slot 256 k) x)) := by
  obtain ⟨p, halloc, hfree⟩ := alloc_freeSameCpu_init hpage hsplit htail
  let r : RingSpsc ℕ 256 := ⟨UInt32.ofNat k, UInt32.ofNat k + 1, update cells (Ring.slot 256 k) x⟩
  have hlt : r.beginIdx < r.endIdx := by
    show UInt32.ofNat k < UInt32.ofNat k + 1
    rw [UInt32.lt_iff_toNat_lt, toNat_succ (by rw [toNat_ofNat_of_lt (by omega)]; omega)]
    exact Nat.lt_succ_self _
  have hpop : r.pop = (some x, ⟨UInt32.ofNat (k + 1), UInt32.ofNat (k + 1),
      update cells (Ring.slot 256 k) x⟩) := by
    rw [RingSpsc.pop_of_lt hlt]
    simp only [r, toNat_ofNat_of_lt (show k < 2 ^ 32 by omega), update_self, ofNat_succ]
  -- the worker pops it and gives it back to its page
  have h3 : ({ wrapState c k cells with
        pool := p
        freeList := update (wrapState c k cells).freeList c r } : CrossState).step pool o
          (.drain c) = some (wrapState c (k + 1) (update cells (Ring.slot 256 k) x)) := by
    simp only [step]
    rw [if_pos hc]
    simp only [update_self, hpop, hfree, wrapState, update_idem]
    rfl
  exact .step (.step (.step hs (step_alloc_wrapState hpage hpos halloc k cells))
    (step_freeDifferent_wrapState hc hco (by omega) cells)) h3

theorem reachable_wrapState (hc : c < maxCpus) (hco : c ≠ o) (hpage : pageSize ∣ page)
    (hpos : 0 < page) (hsplit : pool.addPage page = x :: tail) (htail : tail ≠ []) :
    ∀ k, k ≤ 2 ^ 32 - 1 → ∃ cells, Reachable (crossSystem pool o) (wrapState c k cells)
  | 0, _ => ⟨fun _ => 0, .init (by simp [wrapState, init, RingSpsc.init]; rfl)⟩
  | k + 1, hk => by
    obtain ⟨cells, hs⟩ := reachable_wrapState hc hco hpage hpos hsplit htail k (by omega)
    exact ⟨_, reachable_wrapState_succ hc hco hpage hpos hsplit htail (by omega) hs⟩

/-- **An object freed on another cpu can be lost for good.**  For every pool on a cpu `o`, every
other cpu `c` and every fresh page with two objects or more, a run reaches a state where
`2 ^ 32` objects have been pushed on `pcpu_free_list[o][c]`, all but the last popped by the
worker and given back to their page.  `_begin` is `2 ^ 32 - 1` and `_end` has wrapped to `0`.
The last object is in the ring, and after every further run of every cpu and of the worker it
is still there and still handed out: `free_same_cpu` never gets it. -/
theorem cross_free_lost_after_wrap {pool : Pool} {o c page : ℕ} (hc : c < maxCpus) (hco : c ≠ o)
    (hpage : pageSize ∣ page) (hpos : 0 < page) (htwo : 2 ≤ (pool.addPage page).length) :
    ∃ s x, Reachable (crossSystem pool o) s ∧
      (s.freeList c).beginIdx = UInt32.ofNat (2 ^ 32 - 1) ∧ (s.freeList c).endIdx = 0 ∧
      x ∈ (s.freeList c).contents ∧
      ∀ ops t, Exec (crossSystem pool o) s ops t →
        x ∈ (t.freeList c).contents ∧ x ∈ t.pool.allocated := by
  obtain ⟨x, tail, hsplit⟩ := List.exists_cons_of_ne_nil (addPage_ne_nil pool page)
  have htail : tail ≠ [] := by
    rintro rfl
    rw [hsplit] at htwo
    simp at htwo
  -- `2 ^ 32 - 1` objects through the ring, then one more handed out and pushed
  obtain ⟨cells, hs⟩ := reachable_wrapState hc hco hpage hpos hsplit htail (2 ^ 32 - 1) le_rfl
  obtain ⟨p, halloc, -⟩ := alloc_freeSameCpu_init hpage hsplit htail
  have hs' := Reachable.step (Reachable.step hs (step_alloc_wrapState hpage hpos halloc _ cells))
    (step_freeDifferent_wrapState hc hco (by norm_num) cells)
  refine ⟨_, x, hs', by simp only [update_self], by simp only [update_self]; decide, ?_⟩
  -- the ring holds the one object, with `_end` behind `_begin`
  have hst : Stuck x ⟨UInt32.ofNat (2 ^ 32 - 1), UInt32.ofNat (2 ^ 32 - 1) + 1,
      update cells (Ring.slot 256 (2 ^ 32 - 1)) x⟩ := by
    refine ⟨show UInt32.ofNat (2 ^ 32 - 1) + 1 < UInt32.ofNat (2 ^ 32 - 1) by decide, ?_⟩
    have hsize : (UInt32.ofNat (2 ^ 32 - 1) + 1 - UInt32.ofNat (2 ^ 32 - 1)).toNat = 1 := by decide
    simp only [RingSpsc.contents, RingSpsc.size, hsize, Ring.window, List.range_one, List.map_cons,
      List.map_nil, toNat_ofNat_of_lt (show 2 ^ 32 - 1 < 2 ^ 32 by norm_num), Nat.add_zero,
      update_self, List.mem_singleton]
  refine ⟨by simpa using hst.2, fun ops t hexec => ?_⟩
  have ht : Stuck x (t.freeList c) := Stuck.exec (by simpa using hst) hexec
  have hreach : Reachable (crossSystem pool o) t :=
    hexec.preserves (I := Reachable (crossSystem pool o)) (fun _ _ _ h hst => .step h hst) hs'
  refine ⟨ht.2, (inv_reachable hreach).mem_allocated ?_⟩
  simp only [handedOut, List.mem_append]
  exact .inl (.inl (.inl (.inr (List.mem_flatMap.mpr ⟨c, List.mem_range.mpr hc, ht.2⟩))))

/-- A page of a pool of objects at most half a page less the header has two objects. -/
theorem two_le_length_addPage (pool : Pool) {page : ℕ}
    (hfit : 2 * pool.size + pageHeaderSize ≤ pageSize) : 2 ≤ (pool.addPage page).length := by
  have hpos := pool.size_pos
  have h1 : page + pageSize - pool.size ∈ pool.addPage page :=
    (mem_addPage pool page _).mpr ⟨by omega, by omega, by simp⟩
  have h2 : page + pageSize - 2 * pool.size ∈ pool.addPage page :=
    (mem_addPage pool page _).mpr ⟨by omega, by omega, ⟨1, by omega⟩⟩
  have hsub : [page + pageSize - pool.size, page + pageSize - 2 * pool.size].Subperm
      (pool.addPage page) :=
    List.subperm_of_subset (by simp; omega) (by simp [h1, h2])
  simpa using hsub.length_le

/-- The pool of `8`-byte objects on cpu `0`, freed on cpu `1`, with the page `0x1000`. -/
theorem cross_free_lost_after_wrap_page :
    (1 < maxCpus ∧ 1 ≠ 0 ∧ pageSize ∣ 0x1000 ∧ 0 < 0x1000 ∧
      2 ≤ ((mallocPool 3).addPage 0x1000).length) ∧
    ∃ s x, Reachable (crossSystem (mallocPool 3) 0) s ∧
      (s.freeList 1).beginIdx = UInt32.ofNat (2 ^ 32 - 1) ∧ (s.freeList 1).endIdx = 0 ∧
      x ∈ (s.freeList 1).contents ∧
      ∀ ops t, Exec (crossSystem (mallocPool 3) 0) s ops t →
        x ∈ (t.freeList 1).contents ∧ x ∈ t.pool.allocated :=
  have htwo := @two_le_length_addPage (mallocPool 3) 0x1000 (by decide)
  ⟨⟨by decide, by decide, by decide, by decide, htwo⟩,
    cross_free_lost_after_wrap (by decide) (by decide) (by decide) (by decide) htwo⟩

end Wrap

end CrossState

end Osv.Mempool
