import Mathlib.Data.Fintype.Card
import Osv.Lib.LinkedList
import Osv.Lib.Transition

/-!
# `condvar`

`core/condvar.cc` keeps the `wait_record`s of the threads in `condvar_wait` on `waiters_fifo`,
a singly linked list from `oldest` to `newest` through the records' `next` fields, under the
mutex `condvar->m`.  With `WAIT_MORPHING` (the lock-free mutex), a wake does not wake a
record: it hands it to the user mutex's `send_lock`, which wakes it once the mutex is the
waiter's.

The model has one step per critical section under `condvar->m` (the enqueue of
`condvar_wait`, its removal after a timeout, `condvar_wake_one`, the detach of
`condvar_wake_all`), one step per test of `wr.woken()` and per return of `wr.wait`, and one
per pass of `condvar_wake_all`'s loops, which run outside the lock, the write
`prevr->next = nextr` after a `send_lock` being a step of its own.  The environment expires
timers, moves threads between cpus, and runs the user mutex on the records handed to it: it
may write their `next` field, which its own wait queue uses, and it wakes each of them.
Records are named by their threads, a thread having one `condvar_wait` at a time; `handed`
counts, for each thread's current record, the calls of `send_lock` on it, and is ghost state.

**The protocol** (`condvar_wait_wake_protocol`).  In every reachable state the list is a
chain from `oldest` ending at `newest` of records of blocked threads, none handed over.  A
`condvar_wait` returns `0` only with its record handed over exactly once, and `ETIMEDOUT`
only when it found its record on the list; `condvar_wake_one` hands over the oldest record;
`condvar_wake_all` hands over each record of the list it detached exactly once, through the
splices of its same-cpu loop.  No blocked thread is forgotten (`condvar_blocked_not_lost`).
The invariant behind both is `Layout`: the heap part `Lists`, preserved through the frame
rule of `LinkedList`, and the thread part `Threads`.
-/

namespace Osv.Sync

open Transition LinkedList

variable {τ : Type*}

/-- `ETIMEDOUT` -/
def ETIMEDOUT : ℕ := 110

/-- Where a thread is in `condvar_wait`, `condvar_wake_one` or `condvar_wake_all`. -/
inductive CondPc (τ : Type*) where
  | idle
  /-- In `wr.wait(tmr)`; `timed` when there is a timer. -/
  | waiting (timed : Bool)
  /-- `wr.wait(tmr)` returned as the timer expired; next is the test `!wr.woken()`. -/
  | timedOut
  /-- `wr` was not woken (`ret = ETIMEDOUT`); next is its removal under `condvar->m`. -/
  | removing
  /-- The removal did not find `wr` (`ret = 0`); in `wr.wait()` until the wake. -/
  | waitingWake
  /-- `condvar_wake_all` at `while (wr)`.  Ghost: the list it detached, and the records it has
  handed to `send_lock` so far. -/
  | wakeAll (detached sent : List τ) (wr : Option τ)
  /-- `condvar_wake_all` at the top of its same-cpu loop, with `cpu_wr`, `next_wr`, `prevr`
  and `r`. -/
  | regroup (detached sent : List τ) (cpuWr : ℕ) (nextWr prevr r : Option τ)
  /-- `condvar_wake_all` after `send_lock(r)` with `r != next_wr`, at `prevr->next = nextr`. -/
  | splice (detached sent : List τ) (cpuWr : ℕ) (nextWr prevr nextr : Option τ)

/-- The places of a thread blocked in `condvar_wait`. -/
def CondPc.Blocked : CondPc τ → Prop
  | .waiting _ | .timedOut | .removing | .waitingWake => True
  | _ => False

/-- The ghost list a thread in `condvar_wake_all` detached. -/
def CondPc.detached : CondPc τ → List τ
  | .wakeAll d _ _ | .regroup d _ _ _ _ _ | .splice d _ _ _ _ _ => d
  | _ => []

/-- The records a thread in `condvar_wake_all` has handed to `send_lock` so far. -/
def CondPc.sent : CondPc τ → List τ
  | .wakeAll _ sent _ | .regroup _ sent _ _ _ _ | .splice _ sent _ _ _ _ => sent
  | _ => []

/-- A `condvar`, the records of its waiters, and where its callers are. -/
structure Condvar (τ : Type*) where
  /-- The `next` field of every thread's record. -/
  next : τ → Option τ
  oldest : Option τ
  newest : Option τ
  /-- `wr.woken()`. -/
  woken : τ → Bool
  /-- How often each thread's record has been handed to `send_lock` (ghost). -/
  handed : τ → ℕ
  /-- `tcpu()` of every thread. -/
  cpu : τ → ℕ
  pc : τ → CondPc τ

/-- What a step shows. -/
inductive CondLabel (τ : Type*) where
  | internal
  /-- `condvar_wait` returns `ret`. -/
  | returned (t : τ) (ret : ℕ)
  /-- `condvar_wake_one` handed `wr` over, or found the list empty. -/
  | wokeOne (w : τ) (wr : Option τ)
  /-- `condvar_wake_all`'s loops hand `wr` to `send_lock`. -/
  | sent (w : τ) (wr : τ)
  /-- `condvar_wake_all` returns. -/
  | wokeAll (w : τ) (detached sent : List τ)
  /-- The user mutex acts on a record handed to it. -/
  | mutex

/-- A step of a thread, of its timer, of the scheduler or of the user mutex. -/
inductive CondAction (τ : Type*) where
  | wait (t : τ) (timed : Bool)
  | timer (t : τ)
  | checkWoken (t : τ)
  | remove (t : τ)
  | resume (t : τ)
  | wakeOne (w : τ)
  /-- The detach of `condvar_wake_all`, naming (ghost) the list it takes. -/
  | wakeAll (w : τ) (detached : List τ)
  | wakeAllStep (w : τ)
  | mutexWake (wr : τ)
  | mutexWrite (wr : τ) (v : Option τ)
  /-- The scheduler moves thread `t` to cpu `c`. -/
  | migrate (t : τ) (c : ℕ)

namespace Condvar

/-- A zero-initialized `condvar`; the threads' cpus are what they are. -/
def init (cpu : τ → ℕ) : Condvar τ :=
  ⟨fun _ => none, none, none, fun _ => false, fun _ => 0, cpu, fun _ => .idle⟩

/-- Taking the oldest record `wr` off the list: `oldest = wr->next`, and `newest = nullptr`
when that empties it. -/
def popOldest (s : Condvar τ) (wr : τ) : Condvar τ :=
  { s with oldest := s.next wr, newest := if s.next wr = none then none else s.newest }

variable [DecidableEq τ]

/-- The search loop of a timed-out `condvar_wait`: from `p = oldest`, the record whose `next`
is `wr`, or `none` when `p` runs off the end.  `fuel` bounds the walk. -/
def findPrev (next : τ → Option τ) (wr : τ) : ℕ → Option τ → Option τ
  | _, none => none
  | 0, some _ => none
  | fuel + 1, some p => if next p = some wr then some p else findPrev next wr fuel (next p)

/-- Thread `t` moves to `p`. -/
def setPc (s : Condvar τ) (t : τ) (p : CondPc τ) : Condvar τ :=
  { s with pc := Function.update s.pc t p }

/-- One more `send_lock` on `wr`. -/
def hand (s : Condvar τ) (wr : τ) : Condvar τ :=
  { s with handed := Function.update s.handed wr (s.handed wr + 1) }

/-- `wait_record wr(sched::thread::current())`: thread `t`'s fresh record, not woken, with a
null `next`. -/
def record (s : Condvar τ) (t : τ) : Condvar τ :=
  { s with next := Function.update s.next t none, woken := Function.update s.woken t false,
           handed := Function.update s.handed t 0 }

/-- The critical section of `condvar_wait` that appends `t`'s fresh record to the list, after
which `t` waits.  `none` where the code would follow a null `newest`. -/
def enqueue (s : Condvar τ) (t : τ) (timed : Bool) : Option (Condvar τ) :=
  let r := s.record t
  match s.oldest, s.newest with
  | none, _ =>
      some (({ r with oldest := some t, newest := some t } : Condvar τ).setPc t (.waiting timed))
  | some _, some n =>
      some (({ r with next := Function.update r.next n (some t), newest := some t } : Condvar τ).setPc
        t (.waiting timed))
  | some _, none => none

/-- The critical section of a timed-out `condvar_wait` removing its record `wr` from the
list, or finding it gone (`ret = 0`). -/
def remove [Fintype τ] (s : Condvar τ) (t : τ) : CondLabel τ × Condvar τ :=
  if s.oldest = some t then (.returned t ETIMEDOUT, (s.popOldest t).setPc t .idle)
  else
    match findPrev s.next t (Fintype.card τ) s.oldest with
    | some p =>
        (.returned t ETIMEDOUT,
          ({ s with next := Function.update s.next p (s.next t),
                    newest := if s.next t = none then some p else s.newest } : Condvar τ).setPc t
            .idle)
    | none => (.internal, s.setPc t .waitingWake)

/-- `condvar_wake_one`. -/
def wakeOne (s : Condvar τ) (w : τ) : CondLabel τ × Condvar τ :=
  match s.oldest with
  | none => (.wokeOne w none, s)
  | some wr => (.wokeOne w (some wr), (s.popOldest wr).hand wr)

/-- One pass of the same-cpu loop of `condvar_wake_all` at `r`, up to the splice: a record on
`cpu_wr` is handed to `send_lock`, and `next_wr` moves past it if it was `next_wr`; another
record is kept (`prevr = r`). -/
def regroupStep (s : Condvar τ) (w : τ) (detached sent : List τ) (cpuWr : ℕ)
    (nextWr prevr : Option τ) (r : τ) : CondLabel τ × Condvar τ :=
  if s.cpu r = cpuWr then
    if some r = nextWr then
      (.sent w r, (s.hand r).setPc w (.regroup detached (sent ++ [r]) cpuWr (s.next r) prevr (s.next r)))
    else
      (.sent w r, (s.hand r).setPc w (.splice detached (sent ++ [r]) cpuWr nextWr prevr (s.next r)))
  else (.internal, s.setPc w (.regroup detached sent cpuWr nextWr (some r) (s.next r)))

/-- `prevr->next = nextr`; `none` where the code would write through a null `prevr`. -/
def splice (s : Condvar τ) (w : τ) (detached sent : List τ) (cpuWr : ℕ)
    (nextWr prevr nextr : Option τ) : Option (CondLabel τ × Condvar τ) :=
  match prevr with
  | some p =>
      some (.internal, ({ s with next := Function.update s.next p nextr } : Condvar τ).setPc w
        (.regroup detached sent cpuWr nextWr prevr nextr))
  | none => none

/-- One step, or `none` when the thread is not where the step starts. -/
def exec [Fintype τ] (s : Condvar τ) : CondAction τ → Option (CondLabel τ × Condvar τ)
  | .wait t timed =>
      match s.pc t with
      | .idle => (s.enqueue t timed).map fun s' => (.internal, s')
      | _ => none
  | .timer t =>
      match s.pc t with
      | .waiting true => some (.internal, s.setPc t .timedOut)
      | _ => none
  | .checkWoken t =>
      -- a woken `wr` goes on to `receive_lock`, the mutex being the waiter's already
      match s.pc t with
      | .timedOut =>
          if s.woken t then some (.returned t 0, s.setPc t .idle)
          else some (.internal, s.setPc t .removing)
      | _ => none
  | .remove t =>
      match s.pc t with
      | .removing => some (s.remove t)
      | _ => none
  | .resume t =>
      match s.pc t with
      | .waiting _ | .waitingWake =>
          if s.woken t then some (.returned t 0, s.setPc t .idle) else none
      | _ => none
  | .wakeOne w =>
      match s.pc w with
      | .idle => some (s.wakeOne w)
      | _ => none
  | .wakeAll w detached =>
      match s.pc w with
      | .idle => some (.internal, ({ s with oldest := none, newest := none } : Condvar τ).setPc w
          (.wakeAll detached [] s.oldest))
      | _ => none
  | .wakeAllStep w =>
      match s.pc w with
      | .wakeAll detached sent (some wr) =>
          -- `next_wr` and `cpu_wr` are read before `send_lock(wr)`
          some (.sent w wr, (s.hand wr).setPc w
            (.regroup detached (sent ++ [wr]) (s.cpu wr) (s.next wr) none (s.next wr)))
      | .wakeAll detached sent none => some (.wokeAll w detached sent, s.setPc w .idle)
      | .regroup detached sent cpuWr nextWr prevr (some r) =>
          some (s.regroupStep w detached sent cpuWr nextWr prevr r)
      | .regroup detached sent _ nextWr _ none =>
          some (.internal, s.setPc w (.wakeAll detached sent nextWr))
      | .splice detached sent cpuWr nextWr prevr nextr =>
          s.splice w detached sent cpuWr nextWr prevr nextr
      | _ => none
  | .mutexWake wr =>
      if 0 < s.handed wr ∧ s.woken wr = false then
        some (.mutex, { s with woken := Function.update s.woken wr true })
      else none
  | .mutexWrite wr v =>
      if 0 < s.handed wr ∧ s.woken wr = false then
        some (.mutex, { s with next := Function.update s.next wr v })
      else none
  | .migrate t c => some (.internal, { s with cpu := Function.update s.cpu t c })

/-- The ghost list a `condvar_wake_all` names is the list it detaches. -/
def Allowed (s : Condvar τ) : CondAction τ → Prop
  | .wakeAll _ detached => Chain s.next s.oldest detached
  | _ => True

end Condvar

/-- A `condvar` and its callers, as a transition system. -/
def condvar (τ : Type*) [Fintype τ] [DecidableEq τ] : System (Condvar τ) (CondLabel τ) where
  init s := ∃ cpu, s = Condvar.init cpu
  step s l t := ∃ a, s.Allowed a ∧ s.exec a = some (l, t)

namespace Condvar

variable {s : Condvar τ}

/-! ## Fields of the updates -/

section fields

variable (s : Condvar τ) (t : τ)

@[simp] theorem popOldest_next : (s.popOldest t).next = s.next := rfl
@[simp] theorem popOldest_oldest : (s.popOldest t).oldest = s.next t := rfl
@[simp] theorem popOldest_newest :
    (s.popOldest t).newest = if s.next t = none then none else s.newest := rfl
@[simp] theorem popOldest_woken : (s.popOldest t).woken = s.woken := rfl
@[simp] theorem popOldest_handed : (s.popOldest t).handed = s.handed := rfl
@[simp] theorem popOldest_pc : (s.popOldest t).pc = s.pc := rfl

variable [DecidableEq τ]

@[simp] theorem setPc_next (p : CondPc τ) : (s.setPc t p).next = s.next := rfl
@[simp] theorem setPc_oldest (p : CondPc τ) : (s.setPc t p).oldest = s.oldest := rfl
@[simp] theorem setPc_newest (p : CondPc τ) : (s.setPc t p).newest = s.newest := rfl
@[simp] theorem setPc_woken (p : CondPc τ) : (s.setPc t p).woken = s.woken := rfl
@[simp] theorem setPc_handed (p : CondPc τ) : (s.setPc t p).handed = s.handed := rfl
@[simp] theorem setPc_pc (p : CondPc τ) : (s.setPc t p).pc = Function.update s.pc t p := rfl
@[simp] theorem hand_next : (s.hand t).next = s.next := rfl
@[simp] theorem hand_oldest : (s.hand t).oldest = s.oldest := rfl
@[simp] theorem hand_newest : (s.hand t).newest = s.newest := rfl
@[simp] theorem hand_woken : (s.hand t).woken = s.woken := rfl
@[simp] theorem hand_pc : (s.hand t).pc = s.pc := rfl
@[simp] theorem hand_handed :
    (s.hand t).handed = Function.update s.handed t (s.handed t + 1) := rfl
@[simp] theorem record_next : (s.record t).next = Function.update s.next t none := rfl
@[simp] theorem record_oldest : (s.record t).oldest = s.oldest := rfl
@[simp] theorem record_newest : (s.record t).newest = s.newest := rfl
@[simp] theorem record_woken : (s.record t).woken = Function.update s.woken t false := rfl
@[simp] theorem record_handed : (s.record t).handed = Function.update s.handed t 0 := rfl
@[simp] theorem record_pc : (s.record t).pc = s.pc := rfl

end fields

variable [DecidableEq τ]

/-! ## The search loop -/

section findPrev

variable {next : τ → Option τ} {wr : τ}

/-- The record the walk stops at is followed by `wr` on the list. -/
theorem findPrev_spec {p : Option τ} {l : List τ} {fuel : ℕ} {q : τ} (h : Chain next p l)
    (hq : findPrev next wr fuel p = some q) : ∃ front back, l = front ++ q :: wr :: back := by
  induction h generalizing fuel with
  | nil => cases fuel <;> cases hq
  | @cons a l hl ih =>
      cases fuel with
      | zero => cases hq
      | succ fuel =>
          rw [findPrev] at hq
          split_ifs at hq with hna
          · obtain rfl := Option.some.inj hq
            rw [hna] at hl
            obtain ⟨back, rfl, -⟩ := chain_some.mp hl
            exact ⟨[], back, rfl⟩
          · obtain ⟨front, back, rfl⟩ := ih hq
            exact ⟨a :: front, back, rfl⟩

end findPrev

/-! ## The invariant

Every record is in one place at most: on the list, pending with one `condvar_wake_all` that
detached it and has not handed it over yet, or handed over to the user mutex.  `Lists` says
how the lists lie in the heap, `Threads` what the threads whose records they hold are doing.
-/

/-- The records a thread in `condvar_wake_all` has still to hand over.  In the same-cpu loop
they are `kept`, the segment from `next_wr` that the loop passed over, ending at `prevr`, and
the rest of the list from `r` (from `nextr` after a `send_lock(r)`); with those sent so far
they are the list it detached. -/
def Pending (next : τ → Option τ) : CondPc τ → List τ → Prop
  | .wakeAll d sent wr, l => Chain next wr l ∧ d.Nodup ∧ d.Perm (sent ++ l)
  | .regroup d sent _ nextWr prevr r, l =>
      ∃ kept rest, l = kept ++ rest ∧ Seg next nextWr kept r ∧ Chain next r rest ∧
        prevr = kept.getLast? ∧ d.Nodup ∧ d.Perm (sent ++ l)
  | .splice d sent _ nextWr prevr nextr, l =>
      ∃ kept rest, l = kept ++ rest ∧ kept ≠ [] ∧ (∃ q, Seg next nextWr kept q) ∧
        Chain next nextr rest ∧ prevr = kept.getLast? ∧ d.Nodup ∧ d.Perm (sent ++ l)
  | .idle, l | .waiting _, l | .timedOut, l | .removing, l | .waitingWake, l => l = []

/-- The heap: the list from `oldest` ends at `newest`, and the lists pending with the
`condvar_wake_all`s are chains off it, no record in two of them. -/
structure Lists (s : Condvar τ) (queue : List τ) (pend : τ → List τ) : Prop where
  chain : Chain s.next s.oldest queue
  newest : s.newest = queue.getLast?
  nodup : queue.Nodup
  pend_nodup : ∀ w, (pend w).Nodup
  pend_not_queued : ∀ w x, x ∈ pend w → x ∉ queue
  pend_unique : ∀ w w' x, x ∈ pend w → x ∈ pend w' → w = w'
  shape : ∀ w, Pending s.next (s.pc w) (pend w)

/-- The records on the list or pending with a `condvar_wake_all`. -/
def Placed (queue : List τ) (pend : τ → List τ) (x : τ) : Prop :=
  x ∈ queue ∨ ∃ w, x ∈ pend w

/-- The threads: a record on the list or pending belongs to a blocked thread and has not
been handed over; a blocked thread's record is placed or handed over, once at most, and only
a record handed over is woken. -/
structure Threads (s : Condvar τ) (placed : τ → Prop) : Prop where
  placed_blocked : ∀ x, placed x → (s.pc x).Blocked
  placed_handed : ∀ x, placed x → s.handed x = 0
  blocked : ∀ x, (s.pc x).Blocked → placed x ∨ s.handed x = 1
  handed_le : ∀ x, s.handed x ≤ 1
  woken_handed : ∀ x, s.woken x = true → s.handed x = 1

/-- The invariant of a `condvar` whose list is `queue`, `pend w` being what the
`condvar_wake_all` of thread `w` has still to hand over. -/
structure Layout (s : Condvar τ) (queue : List τ) (pend : τ → List τ) : Prop where
  lists : Lists s queue pend
  threads : Threads s (Placed queue pend)

variable {next : τ → Option τ} {p : CondPc τ} {l : List τ} {x t w : τ} {q : List τ}
  {pend : τ → List τ}

omit [DecidableEq τ] in
theorem pending_blocked (hp : p.Blocked) : Pending next p l ↔ l = [] := by
  cases p with
  | wakeAll | regroup | splice => exact hp.elim
  | _ => rfl

omit [DecidableEq τ] in
/-- A pending record is one the thread detached and has not sent. -/
theorem Pending.mem (h : Pending next p l) (hx : x ∈ l) : x ∈ p.detached ∧ x ∉ p.sent := by
  have key : ∀ {d sent : List τ}, d.Nodup → d.Perm (sent ++ l) → x ∈ d ∧ x ∉ sent :=
    fun hd hperm => ⟨hperm.mem_iff.mpr (List.mem_append_right _ hx),
      fun hs => List.disjoint_of_nodup_append (hperm.nodup_iff.mp hd) hs hx⟩
  cases p with
  | wakeAll d sent wr => exact key h.2.1 h.2.2
  | regroup d sent c nextWr prevr r =>
      obtain ⟨-, -, -, -, -, -, hd, hperm⟩ := h
      exact key hd hperm
  | splice d sent c nextWr prevr nextr =>
      obtain ⟨-, -, -, -, -, -, -, hd, hperm⟩ := h
      exact key hd hperm
  | _ =>
      rw [show l = [] from h] at hx
      exact absurd hx List.not_mem_nil

/-- The frame rule for pending lists. -/
theorem Pending.update (h : Pending next p l) (hx : x ∉ l) (v : Option τ) :
    Pending (Function.update next x v) p l := by
  cases p with
  | wakeAll d sent wr => exact ⟨h.1.update hx v, h.2⟩
  | regroup d sent c nextWr prevr r =>
      obtain ⟨kept, rest, rfl, hs, hc, hd⟩ := h
      exact ⟨kept, rest, rfl, hs.update (fun hk => hx (List.mem_append_left _ hk)) v,
        hc.update (fun hr => hx (List.mem_append_right _ hr)) v, hd⟩
  | splice d sent c nextWr prevr nextr =>
      obtain ⟨kept, rest, rfl, hne, ⟨r, hs⟩, hc, hd⟩ := h
      exact ⟨kept, rest, rfl, hne, ⟨r, hs.update (fun hk => hx (List.mem_append_left _ hk)) v⟩,
        hc.update (fun hr => hx (List.mem_append_right _ hr)) v, hd⟩
  | _ => exact h

omit [DecidableEq τ] in
theorem Threads.not_placed_of_woken {P : τ → Prop} (h : Threads s P) (hw : s.woken x = true) :
    ¬ P x := fun hx => by
  have := h.woken_handed x hw
  rw [h.placed_handed x hx] at this
  cases this

omit [DecidableEq τ] in
theorem Lists.pend_idle (h : Lists s q pend) (hp : (s.pc w).Blocked ∨ s.pc w = .idle) :
    pend w = [] := by
  rcases hp with hp | hp
  · exact (pending_blocked hp).mp (h.shape w)
  · simpa [hp, Pending] using h.shape w

/-! ### The thread invariant under each kind of update -/

namespace Threads

variable {P P' : τ → Prop}

omit [DecidableEq τ] in
/-- `Threads` reads only the places, the hand counts and `woken`. -/
theorem of_eq {s' : Condvar τ} (h : Threads s P) (hpc : s'.pc = s.pc) (hh : s'.handed = s.handed)
    (hw : s'.woken = s.woken) : Threads s' P where
  placed_blocked := by rw [hpc]; exact h.placed_blocked
  placed_handed := by rw [hh]; exact h.placed_handed
  blocked := by rw [hpc, hh]; exact h.blocked
  handed_le := by rw [hh]; exact h.handed_le
  woken_handed := by rw [hw, hh]; exact h.woken_handed

omit [DecidableEq τ] in
theorem congr (h : Threads s P) (hP : ∀ y, P y ↔ P' y) : Threads s P' := by
  rw [show P' = P from funext fun y => propext (hP y).symm]
  exact h

/-- A blocked thread stays blocked. -/
theorem setPc_blocked (h : Threads s P) (ht : (s.pc t).Blocked) (hp : p.Blocked) :
    Threads (s.setPc t p) P where
  placed_blocked y hy := by
    rcases eq_or_ne y t with rfl | hne
    · simpa using hp
    · simpa [Function.update_of_ne hne] using h.placed_blocked y hy
  placed_handed := h.placed_handed
  blocked y hy := by
    rcases eq_or_ne y t with rfl | hne
    · exact h.blocked y ht
    · exact h.blocked y (by simpa [Function.update_of_ne hne] using hy)
  handed_le := h.handed_le
  woken_handed := h.woken_handed

/-- A thread whose record is not placed moves to a place that is not blocked, or that its
record, handed over, allows. -/
theorem setPc_unplaced (h : Threads s P) (ht : ¬ P t) (hp : p.Blocked → s.handed t = 1) :
    Threads (s.setPc t p) P where
  placed_blocked y hy := by
    have hne : y ≠ t := fun hyt => ht (hyt ▸ hy)
    simpa [Function.update_of_ne hne] using h.placed_blocked y hy
  placed_handed := h.placed_handed
  blocked y hy := by
    rcases eq_or_ne y t with rfl | hne
    · exact .inr (hp (by simpa using hy))
    · exact h.blocked y (by simpa [Function.update_of_ne hne] using hy)
  handed_le := h.handed_le
  woken_handed := h.woken_handed

/-- A thread returns with its record taken off the list. -/
theorem unplace (h : Threads s P) (hP : ∀ y, P' y ↔ P y ∧ y ≠ t) :
    Threads (s.setPc t .idle) P' where
  placed_blocked y hy := by
    obtain ⟨hy, hne⟩ := (hP y).mp hy
    simpa [Function.update_of_ne hne] using h.placed_blocked y hy
  placed_handed y hy := h.placed_handed y ((hP y).mp hy).1
  blocked y hy := by
    rcases eq_or_ne y t with rfl | hne
    · simp [CondPc.Blocked] at hy
    · rw [setPc_pc, Function.update_of_ne hne] at hy
      exact (h.blocked y hy).imp (fun hy => (hP y).mpr ⟨hy, hne⟩) id
  handed_le := h.handed_le
  woken_handed := h.woken_handed

/-- `send_lock` on a placed record takes it out of its place. -/
theorem hand (h : Threads s P) (hx : P x) (hP : ∀ y, P' y ↔ P y ∧ y ≠ x) :
    Threads (s.hand x) P' where
  placed_blocked y hy := h.placed_blocked y ((hP y).mp hy).1
  placed_handed y hy := by
    obtain ⟨hy, hne⟩ := (hP y).mp hy
    simpa [Function.update_of_ne hne] using h.placed_handed y hy
  blocked y hy := by
    rcases eq_or_ne y x with rfl | hne
    · simp [h.placed_handed y hx]
    · rw [hand_handed, Function.update_of_ne hne]
      exact (h.blocked y hy).imp (fun hy => (hP y).mpr ⟨hy, hne⟩) id
  handed_le y := by
    rcases eq_or_ne y x with rfl | hne
    · simp [h.placed_handed y hx]
    · simpa [Function.update_of_ne hne] using h.handed_le y
  woken_handed y hy := by
    rcases eq_or_ne y x with rfl | hne
    · have := h.woken_handed y hy
      rw [h.placed_handed y hx] at this
      cases this
    · simpa [Function.update_of_ne hne] using h.woken_handed y hy

/-- A thread starts waiting with a fresh record, placed on the list. -/
theorem enqueue {s' : Condvar τ} (h : Threads s P) (hidle : s.pc t = .idle) {timed : Bool}
    (hpc : s'.pc = Function.update s.pc t (.waiting timed))
    (hh : s'.handed = Function.update s.handed t 0) (hw : s'.woken = Function.update s.woken t false)
    (hP : ∀ y, P' y ↔ P y ∨ y = t) : Threads s' P' where
  placed_blocked y hy := by
    rw [hpc]
    rcases eq_or_ne y t with rfl | hne
    · simp [CondPc.Blocked]
    · rw [Function.update_of_ne hne]
      exact h.placed_blocked y (((hP y).mp hy).resolve_right hne)
  placed_handed y hy := by
    rw [hh]
    rcases eq_or_ne y t with rfl | hne
    · simp
    · rw [Function.update_of_ne hne]
      exact h.placed_handed y (((hP y).mp hy).resolve_right hne)
  blocked y hy := by
    rcases eq_or_ne y t with rfl | hne
    · exact .inl ((hP y).mpr (.inr rfl))
    · rw [hpc, Function.update_of_ne hne] at hy
      rw [hh, Function.update_of_ne hne]
      exact (h.blocked y hy).imp (fun hy => (hP y).mpr (.inl hy)) id
  handed_le y := by
    rw [hh]
    rcases eq_or_ne y t with rfl | hne
    · simp
    · rw [Function.update_of_ne hne]
      exact h.handed_le y
  woken_handed y hy := by
    rw [hw] at hy
    rw [hh]
    rcases eq_or_ne y t with rfl | hne
    · simp at hy
    · rw [Function.update_of_ne hne] at hy ⊢
      exact h.woken_handed y hy

/-- The user mutex wakes a record handed to it. -/
theorem wake (h : Threads s P) (hx : 0 < s.handed x) :
    Threads { s with woken := Function.update s.woken x true } P where
  placed_blocked := h.placed_blocked
  placed_handed := h.placed_handed
  blocked := h.blocked
  handed_le := h.handed_le
  woken_handed y hy := by
    rcases eq_or_ne y x with rfl | hne
    · have := h.handed_le y
      dsimp only
      omega
    · exact h.woken_handed y (by simpa [Function.update_of_ne hne] using hy)

end Threads

/-! ### The heap invariant under each kind of update -/

theorem mem_update_pend {l : List τ} {w' y : τ} :
    y ∈ Function.update pend w l w' ↔ w' = w ∧ y ∈ l ∨ w' ≠ w ∧ y ∈ pend w' := by
  rcases eq_or_ne w' w with rfl | hne
  · simp
  · simp [hne]

omit [DecidableEq τ] in
theorem placed_enqueue (y : τ) : Placed (q ++ [t]) pend y ↔ Placed q pend y ∨ y = t := by
  simp only [Placed, List.mem_append, List.mem_singleton]
  tauto

namespace Lists

omit [DecidableEq τ] in
/-- `Lists` reads only the heap, the two ends of the list and the places. -/
theorem of_eq {s' : Condvar τ} (h : Lists s q pend) (hn : s'.next = s.next) (ho : s'.oldest = s.oldest)
    (hnw : s'.newest = s.newest) (hpc : s'.pc = s.pc) : Lists s' q pend where
  chain := by rw [hn, ho]; exact h.chain
  newest := by rw [hnw]; exact h.newest
  nodup := h.nodup
  pend_nodup := h.pend_nodup
  pend_not_queued := h.pend_not_queued
  pend_unique := h.pend_unique
  shape := by rw [hn, hpc]; exact h.shape

omit [DecidableEq τ] in
/-- Taking a record off the list takes it out of its place. -/
theorem placed_remove {q' a b : List τ} (h : Lists s q pend) (hq : q = a ++ x :: b)
    (hq' : q' = a ++ b) (y : τ) : Placed q' pend y ↔ Placed q pend y ∧ y ≠ x := by
  subst hq hq'
  have hx : x ∉ a ++ b := (List.nodup_cons.mp (List.nodup_middle.mp h.nodup)).1
  constructor
  · rintro (hy | ⟨w, hy⟩)
    · refine ⟨.inl ?_, fun hyx => hx (hyx ▸ hy)⟩
      simp only [List.mem_append, List.mem_cons] at hy ⊢
      tauto
    · exact ⟨.inr ⟨w, hy⟩, fun hyx => h.pend_not_queued w y hy (by simp [hyx])⟩
  · rintro ⟨hy | ⟨w, hy⟩, hne⟩
    · refine .inl ?_
      simp only [List.mem_append, List.mem_cons] at hy ⊢
      tauto
    · exact .inr ⟨w, hy⟩

/-- Sending a pending record takes it out of its place. -/
theorem placed_send {k r : List τ} (h : Lists s q pend) (hw : pend w = k ++ x :: r) (y : τ) :
    Placed q (Function.update pend w (k ++ r)) y ↔ Placed q pend y ∧ y ≠ x := by
  have hx : x ∉ k ++ r := (List.nodup_cons.mp (List.nodup_middle.mp (hw ▸ h.pend_nodup w))).1
  have hxw : x ∈ pend w := by simp [hw]
  constructor
  · rintro (hy | ⟨w', hy⟩)
    · exact ⟨.inl hy, fun hyx => h.pend_not_queued w x hxw (hyx ▸ hy)⟩
    · rcases mem_update_pend.mp hy with ⟨rfl, hkr⟩ | ⟨hne, hy'⟩
      · refine ⟨.inr ⟨w', ?_⟩, fun hyx => hx (hyx ▸ hkr)⟩
        rw [hw]
        simp only [List.mem_append, List.mem_cons] at hkr ⊢
        tauto
      · exact ⟨.inr ⟨w', hy'⟩, fun hyx => hne (h.pend_unique _ _ x (hyx ▸ hy') hxw)⟩
  · rintro ⟨hy | ⟨w', hy⟩, hne⟩
    · exact .inl hy
    · refine .inr ⟨w', mem_update_pend.mpr ?_⟩
      rcases eq_or_ne w' w with rfl | hw'
      · rw [hw] at hy
        refine .inl ⟨rfl, ?_⟩
        simp only [List.mem_append, List.mem_cons] at hy ⊢
        tauto
      · exact .inr ⟨hw', hy⟩

/-- The detach moves the records of the list to the pending list of the thread. -/
theorem placed_detach (hw : pend w = []) (y : τ) :
    Placed [] (Function.update pend w q) y ↔ Placed q pend y := by
  simp only [Placed, List.not_mem_nil, false_or, mem_update_pend]
  constructor
  · rintro ⟨w', ⟨rfl, hy⟩ | ⟨-, hy⟩⟩
    · exact .inl hy
    · exact .inr ⟨w', hy⟩
  · rintro (hy | ⟨w', hy⟩)
    · exact ⟨w, .inl ⟨rfl, hy⟩⟩
    · have hne : w' ≠ w := by
        rintro rfl
        simp [hw] at hy
      exact ⟨w', .inr ⟨hne, hy⟩⟩

/-- A thread moves to a place whose pending records are those it had. -/
theorem setPc (h : Lists s q pend) (hp : Pending s.next p (pend t)) :
    Lists (s.setPc t p) q pend where
  chain := h.chain
  newest := h.newest
  nodup := h.nodup
  pend_nodup := h.pend_nodup
  pend_not_queued := h.pend_not_queued
  pend_unique := h.pend_unique
  shape w := by
    rcases eq_or_ne w t with rfl | hne
    · simpa using hp
    · simpa [Function.update_of_ne hne] using h.shape w

theorem hand (h : Lists s q pend) : Lists (s.hand x) q pend := h.of_eq rfl rfl rfl rfl

/-- A thread of `condvar_wake_all` moves on with fewer records pending. -/
theorem setPend (h : Lists s q pend) (hp : Pending s.next p l) (hsub : ∀ y ∈ l, y ∈ pend w)
    (hnd : l.Nodup) : Lists (s.setPc w p) q (Function.update pend w l) := by
  have hmem : ∀ w' y, y ∈ Function.update pend w l w' → y ∈ pend w' := by
    intro w' y hy
    rcases eq_or_ne w' w with rfl | hne
    · exact hsub y (by simpa using hy)
    · simpa [Function.update_of_ne hne] using hy
  refine ⟨h.chain, h.newest, h.nodup, fun w' => ?_, fun w' y hy => h.pend_not_queued w' y (hmem w' y hy),
    fun w₁ w₂ y h₁ h₂ => h.pend_unique w₁ w₂ y (hmem w₁ y h₁) (hmem w₂ y h₂), fun w' => ?_⟩
  · rcases eq_or_ne w' w with rfl | hne
    · simpa using hnd
    · simpa [Function.update_of_ne hne] using h.pend_nodup w'
  · rcases eq_or_ne w' w with rfl | hne
    · simpa using hp
    · simpa [Function.update_of_ne hne] using h.shape w'

/-- A write to the `next` field of a record neither on the list nor pending. -/
theorem write (h : Lists s q pend) (hq : x ∉ q) (hp : ∀ w, x ∉ pend w) (v : Option τ) :
    Lists { s with next := Function.update s.next x v } q pend where
  chain := h.chain.update hq v
  newest := h.newest
  nodup := h.nodup
  pend_nodup := h.pend_nodup
  pend_not_queued := h.pend_not_queued
  pend_unique := h.pend_unique
  shape w := (h.shape w).update (hp w) v

omit [DecidableEq τ] in
/-- Taking the oldest record off the list. -/
theorem popOldest {q' : List τ} (h : Lists s (x :: q') pend) : Lists (s.popOldest x) q' pend where
  chain := (chain_cons.mp h.chain).2
  newest := by
    have hnil := (chain_cons.mp h.chain).2.eq_nil_iff
    rcases List.eq_nil_or_concat' q' with rfl | ⟨k, z, rfl⟩
    · simp [hnil.mp rfl]
    · have : s.next x ≠ none := fun hn => by simpa using hnil.mpr hn
      have h₁ : (x :: (k ++ [z])).getLast? = some z := List.getLast?_eq_some_iff.mpr ⟨x :: k, rfl⟩
      rw [popOldest_newest, if_neg this, h.newest, h₁, List.getLast?_concat]
  nodup := (List.nodup_cons.mp h.nodup).2
  pend_nodup := h.pend_nodup
  pend_not_queued w y hy hq := h.pend_not_queued w y hy (List.mem_cons_of_mem x hq)
  pend_unique := h.pend_unique
  shape := h.shape

/-- The removal of a timed-out record `t` after `p`: `p->next = p->next->next`, and `p`
becomes `newest` if `t` was. -/
theorem unlink {front back : List τ} {p : τ} (h : Lists s (front ++ p :: t :: back) pend) :
    Lists ({ s with next := Function.update s.next p (s.next t),
                    newest := if s.next t = none then some p else s.newest } : Condvar τ)
      (front ++ p :: back) pend := by
  have hnd := h.nodup
  have hp : p ∉ front ++ back := by
    have := (List.nodup_cons.mp (List.nodup_middle.mp hnd)).1
    simp only [List.mem_append, List.mem_cons, not_or] at this ⊢
    exact ⟨this.1, this.2.2⟩
  have hback : Chain s.next (s.next t) back := by
    have h' : Chain s.next s.oldest ((front ++ [p]) ++ t :: back) := by simpa using h.chain
    obtain ⟨_, -, hc⟩ := h'.seg_of_append
    exact (chain_cons.mp hc).2
  refine ⟨h.chain.unlink hp, ?_, ?_, h.pend_nodup, fun w y hy hq => ?_, h.pend_unique,
    fun w => (h.shape w).update (fun hm => h.pend_not_queued w p hm (by simp)) _⟩
  · rcases List.eq_nil_or_concat' back with rfl | ⟨k, z, rfl⟩
    · simp [(hback.eq_nil_iff).mp rfl]
    · have : s.next t ≠ none := fun hn => by simpa using hback.eq_nil_iff.mpr hn
      have h₁ : (front ++ p :: t :: (k ++ [z])).getLast? = some z :=
        List.getLast?_eq_some_iff.mpr ⟨front ++ p :: t :: k, by simp⟩
      have h₂ : (front ++ p :: (k ++ [z])).getLast? = some z :=
        List.getLast?_eq_some_iff.mpr ⟨front ++ p :: k, by simp⟩
      rw [if_neg this, h.newest, h₁, h₂]
  · exact hnd.sublist (by simp)
  · exact h.pend_not_queued w y hy (by simp at hq ⊢; tauto)

/-- The detach of `condvar_wake_all`: the list becomes the thread's pending list. -/
theorem detach (h : Lists s q pend) (hidle : s.pc w = .idle) :
    Lists (({ s with oldest := none, newest := none } : Condvar τ).setPc w (.wakeAll q [] s.oldest))
      [] (Function.update pend w q) := by
  have hw : pend w = [] := h.pend_idle (.inr hidle)
  refine ⟨.nil, rfl, List.nodup_nil, fun w' => ?_, fun _ _ _ => List.not_mem_nil, ?_, fun w' => ?_⟩
  · rcases eq_or_ne w' w with rfl | hne
    · simpa using h.nodup
    · simpa [Function.update_of_ne hne] using h.pend_nodup w'
  · intro w₁ w₂ y h₁ h₂
    rcases mem_update_pend.mp h₁ with ⟨rfl, hq₁⟩ | ⟨-, hp₁⟩ <;>
      rcases mem_update_pend.mp h₂ with ⟨rfl, hq₂⟩ | ⟨-, hp₂⟩
    · rfl
    · exact absurd hq₁ (h.pend_not_queued _ y hp₂)
    · exact absurd hq₂ (h.pend_not_queued _ y hp₁)
    · exact h.pend_unique _ _ y hp₁ hp₂
  · rcases eq_or_ne w' w with rfl | hne
    · simpa [Pending] using ⟨h.chain, h.nodup⟩
    · simpa [Function.update_of_ne hne] using h.shape w'

/-- Appending the fresh record `t`, its `next` null, to the empty list. -/
theorem push_empty (h : Lists s [] pend) (ht : s.next t = none) (htp : ∀ w, t ∉ pend w)
    (hpend : pend t = []) {timed : Bool} :
    Lists (({ s with oldest := some t, newest := some t } : Condvar τ).setPc t (.waiting timed))
      [t] pend := by
  have hlists : Lists ({ s with oldest := some t, newest := some t } : Condvar τ) [t] pend :=
    ⟨.cons (by rw [ht]; exact .nil), rfl, List.nodup_singleton t, h.pend_nodup,
      fun w y hy hq => htp w (List.mem_singleton.mp hq ▸ hy), h.pend_unique, h.shape⟩
  exact hlists.setPc (by rw [hpend]; exact rfl)

/-- Appending the fresh record `t`, its `next` null, after `newest`. -/
theorem push_last {n : τ} (h : Lists s q pend) (hn : s.newest = some n) (ht : s.next t = none)
    (htq : t ∉ q) (htp : ∀ w, t ∉ pend w) (hpend : pend t = []) {timed : Bool} :
    Lists (({ s with next := Function.update s.next n (some t), newest := some t } : Condvar τ).setPc
      t (.waiting timed)) (q ++ [t]) pend := by
  obtain ⟨k, rfl⟩ := List.getLast?_eq_some_iff.mp (h.newest ▸ hn)
  have hnq : n ∈ k ++ [n] := by simp
  have htn : t ≠ n := fun htn => htq (htn ▸ hnq)
  have hnk : n ∉ k := by simpa using (List.nodup_cons.mp (List.nodup_middle.mp h.nodup)).1
  have hlists : Lists ({ s with next := Function.update s.next n (some t), newest := some t } :
      Condvar τ) (k ++ [n] ++ [t]) pend := by
    refine ⟨by simpa using h.chain.append_cell hnk htn ht, by simp,
      List.nodup_middle.mpr (List.nodup_cons.mpr ⟨by simpa using htq, by simpa using h.nodup⟩),
      h.pend_nodup, fun w y hy hq => ?_, h.pend_unique,
      fun w => (h.shape w).update (fun hm => h.pend_not_queued w n hm hnq) _⟩
    rcases List.mem_append.mp hq with hq | hq
    · exact h.pend_not_queued w y hy hq
    · exact htp w (List.mem_singleton.mp hq ▸ hy)
  exact hlists.setPc (by rw [hpend]; exact rfl)

/-- A write by `condvar_wake_all` to the `next` field of a record pending with it. -/
theorem rewrite (h : Lists s q pend) (hx : x ∈ pend w) {v : Option τ}
    (hp : Pending (Function.update s.next x v) p (pend w)) :
    Lists (({ s with next := Function.update s.next x v } : Condvar τ).setPc w p) q pend := by
  refine ⟨h.chain.update (h.pend_not_queued w x hx) v, h.newest, h.nodup, h.pend_nodup,
    h.pend_not_queued, h.pend_unique, fun w' => ?_⟩
  rcases eq_or_ne w' w with rfl | hne
  · simpa using hp
  · have hxw' : x ∉ pend w' := fun hm => hne (h.pend_unique _ _ x hm hx)
    simpa [Function.update_of_ne hne] using (h.shape w').update hxw' v

end Lists

/-! ### The loops of `condvar_wake_all` -/

section wakeAll

variable {d sent : List τ} {c : ℕ} {nextWr prevr : Option τ}

omit [DecidableEq τ] in
/-- The outer loop at `wr`: the same-cpu loop starts at `next_wr = wr->next`. -/
theorem pending_wakeAll_some {wr : τ} (h : Pending next (.wakeAll d sent (some wr)) l) (c : ℕ) :
    ∃ rest, l = wr :: rest ∧
      Pending next (.regroup d (sent ++ [wr]) c (next wr) none (next wr)) rest := by
  obtain ⟨hc, hd, hperm⟩ := h
  obtain ⟨rest, rfl, hrest⟩ := chain_some.mp hc
  exact ⟨rest, rfl, [], rest, rfl, .nil _, hrest, rfl, hd, by simpa using hperm⟩

omit [DecidableEq τ] in
/-- The outer loop ends having sent the records it detached. -/
theorem pending_wakeAll_none (h : Pending next (.wakeAll d sent none) l) :
    l = [] ∧ d.Nodup ∧ sent.Perm d := by
  obtain ⟨hc, hd, hperm⟩ := h
  obtain rfl := chain_none.mp hc
  exact ⟨rfl, hd, by simpa using hperm.symm⟩

omit [DecidableEq τ] in
/-- The same-cpu loop at `r`: the records from `next_wr` it kept, `r`, and the rest. -/
theorem pending_regroup_some {r : τ} (h : Pending next (.regroup d sent c nextWr prevr (some r)) l) :
    ∃ kept rest, l = kept ++ r :: rest ∧ Seg next nextWr kept (some r) ∧
      Chain next (next r) rest ∧ prevr = kept.getLast? ∧ d.Nodup ∧ d.Perm (sent ++ l) := by
  obtain ⟨kept, rest, rfl, hs, hc, hprev, hd⟩ := h
  obtain ⟨rest, rfl, hrest⟩ := chain_some.mp hc
  exact ⟨kept, rest, rfl, hs, hrest, hprev, hd⟩

omit [DecidableEq τ] in
/-- `send_lock(r)` with `r == next_wr`: nothing was kept, and `next_wr` moves past `r`. -/
theorem pending_regroup_head {r : τ} (h : Pending next (.regroup d sent c nextWr prevr (some r)) l)
    (hnd : l.Nodup) (hr : some r = nextWr) :
    ∃ rest, l = r :: rest ∧
      Pending next (.regroup d (sent ++ [r]) c (next r) prevr (next r)) rest := by
  obtain ⟨kept, rest, rfl, hs, hc, hprev, hd, hperm⟩ := pending_regroup_some h
  subst hr
  have hrk : r ∉ kept := fun hk =>
    (List.nodup_cons.mp (List.nodup_middle.mp hnd)).1 (List.mem_append_left _ hk)
  obtain rfl := hs.eq_nil hrk
  exact ⟨rest, rfl, [], rest, rfl, .nil _, hc, hprev, hd, by simpa using hperm⟩

omit [DecidableEq τ] in
/-- `send_lock(r)` with `r != next_wr`: some record was kept, `prevr` the last of them. -/
theorem pending_regroup_splice {r : τ}
    (h : Pending next (.regroup d sent c nextWr prevr (some r)) l) (hr : some r ≠ nextWr) :
    ∃ kept rest, l = kept ++ r :: rest ∧
      Pending next (.splice d (sent ++ [r]) c nextWr prevr (next r)) (kept ++ rest) := by
  obtain ⟨kept, rest, rfl, hs, hc, hprev, hd, hperm⟩ := pending_regroup_some h
  have hne : kept ≠ [] := by
    rintro rfl
    cases hs
    exact hr rfl
  refine ⟨kept, rest, rfl, kept, rest, rfl, hne, ⟨_, hs⟩, hc, hprev, hd, ?_⟩
  simpa using hperm.trans (List.Perm.append_left sent List.perm_middle)

omit [DecidableEq τ] in
/-- A record on another cpu is kept: it becomes `prevr`. -/
theorem pending_regroup_keep {r : τ} (h : Pending next (.regroup d sent c nextWr prevr (some r)) l) :
    Pending next (.regroup d sent c nextWr (some r) (next r)) l := by
  obtain ⟨kept, rest, rfl, hs, hc, -, hd⟩ := pending_regroup_some h
  exact ⟨kept ++ [r], rest, by simp, hs.snoc, hc, by simp, hd⟩

omit [DecidableEq τ] in
/-- The same-cpu loop ends: the outer loop goes on at `next_wr` with the records kept. -/
theorem pending_regroup_none (h : Pending next (.regroup d sent c nextWr prevr none) l) :
    Pending next (.wakeAll d sent nextWr) l := by
  obtain ⟨kept, rest, rfl, hs, hc, -, hd, hperm⟩ := h
  obtain rfl := chain_none.mp hc
  exact ⟨by simpa using hs.chain, hd, by simpa using hperm⟩

/-- `prevr->next = nextr` splices `r` out after the last record kept. -/
theorem pending_splice {p : τ} {nextr : Option τ}
    (h : Pending next (.splice d sent c nextWr (some p) nextr) l) (hnd : l.Nodup) :
    p ∈ l ∧ Pending (Function.update next p nextr) (.regroup d sent c nextWr (some p) nextr) l := by
  obtain ⟨kept, rest, rfl, -, ⟨r, hs⟩, hc, hprev, hd⟩ := h
  obtain ⟨k, rfl⟩ := List.getLast?_eq_some_iff.mp hprev.symm
  have hp : p ∉ k ++ rest := by
    simpa using (List.nodup_cons.mp (List.nodup_middle.mp (by simpa using hnd))).1
  refine ⟨by simp, k ++ [p], rest, rfl, hs.relink (fun hk => hp (List.mem_append_left _ hk)) nextr,
    hc.update (fun hr => hp (List.mem_append_right _ hr)) nextr, hprev, hd⟩

end wakeAll

/-! ### The invariant under each step -/

/-- What the label of a step from `s`, laid out as `queue` and `pend`, to `s'` says: a
`condvar_wait` returns `0` with its record woken, and `ETIMEDOUT` having found it on the list;
`condvar_wake_one` changes nothing on an empty list, and else hands the head of the list to
`send_lock` and leaves the rest of the list; the loops of `condvar_wake_all` hand to
`send_lock` a record pending with them, which joins the records they sent; and it returns
having sent each record it detached once. -/
def Observed (s : Condvar τ) (queue : List τ) (pend : τ → List τ) (s' : Condvar τ) :
    CondLabel τ → Prop
  | .returned t ret => ret = 0 ∧ s.woken t = true ∨ ret = ETIMEDOUT ∧ t ∈ queue
  | .wokeOne _ none => queue = [] ∧ s' = s
  | .wokeOne _ (some wr) => queue.head? = some wr ∧
      s'.handed = Function.update s.handed wr (s.handed wr + 1) ∧ Chain s'.next s'.oldest queue.tail
  | .sent w wr => wr ∈ pend w ∧ s'.handed = Function.update s.handed wr (s.handed wr + 1) ∧
      (s'.pc w).sent = (s.pc w).sent ++ [wr]
  | .wokeAll _ detached sent => detached.Nodup ∧ sent.Perm detached
  | .internal | .mutex => True

omit [DecidableEq τ] in
theorem layout_init (cpu : τ → ℕ) : Layout (init cpu) [] fun _ => [] where
  lists := ⟨.nil, rfl, List.nodup_nil, fun _ => List.nodup_nil, fun _ _ h => absurd h List.not_mem_nil,
    fun _ _ _ h => absurd h List.not_mem_nil, fun _ => rfl⟩
  threads := ⟨fun _ h => by simp [Placed] at h, fun _ _ => rfl, fun _ h => False.elim h,
    fun _ => Nat.zero_le _, fun _ h => by simp [init] at h⟩

namespace Layout

variable {s' : Condvar τ}

/-- A blocked thread stays blocked: its timer expires, its removal starts or finds nothing. -/
theorem setPc_blocked (h : Layout s q pend) (ht : (s.pc t).Blocked) (hp : p.Blocked) :
    Layout (s.setPc t p) q pend :=
  ⟨h.lists.setPc (by rw [h.lists.pend_idle (.inl ht)]; exact (pending_blocked hp).mpr rfl),
    h.threads.setPc_blocked ht hp⟩

/-- A blocked thread whose record is woken returns. -/
theorem leave (h : Layout s q pend) (ht : (s.pc t).Blocked) (hw : s.woken t = true) :
    Layout (s.setPc t .idle) q pend :=
  ⟨h.lists.setPc (by rw [h.lists.pend_idle (.inl ht)]; exact rfl),
    h.threads.setPc_unplaced (h.threads.not_placed_of_woken hw) (fun hb => False.elim hb)⟩

theorem enqueue {timed : Bool} (h : Layout s q pend) (hidle : s.pc t = .idle)
    (he : s.enqueue t timed = some s') : Layout s' (q ++ [t]) pend := by
  have hnp : ¬ Placed q pend t := fun hp => by
    simpa [hidle, CondPc.Blocked] using h.threads.placed_blocked t hp
  have htq : t ∉ q := fun ht => hnp (.inl ht)
  have htp : ∀ w, t ∉ pend w := fun w ht => hnp (.inr ⟨w, ht⟩)
  have hpend : pend t = [] := h.lists.pend_idle (.inr hidle)
  have hrec : Lists (s.record t) q pend := (h.lists.write htq htp none).of_eq rfl rfl rfl rfl
  have hth : ∀ s₀ : Condvar τ, s₀.pc = s.pc → s₀.handed = (s.record t).handed →
      s₀.woken = (s.record t).woken →
      Threads (s₀.setPc t (.waiting timed)) (Placed (q ++ [t]) pend) := fun s₀ hpc hh hw =>
    h.threads.enqueue hidle (by rw [setPc_pc, hpc]) hh hw placed_enqueue
  unfold Condvar.enqueue at he
  rcases ho : s.oldest with _ | o
  · simp only [ho] at he
    cases he
    obtain rfl : q = [] := chain_none.mp (ho ▸ h.lists.chain)
    exact ⟨hrec.push_empty (by simp) htp hpend, hth _ rfl rfl rfl⟩
  · rcases hn : s.newest with _ | n
    · simp only [ho, hn] at he
      cases he
    · simp only [ho, hn] at he
      cases he
      exact ⟨hrec.push_last hn (by simp) htq htp hpend, hth _ rfl rfl rfl⟩

/-- The removal critical section of a timed-out `condvar_wait`. -/
theorem remove [Fintype τ] {l : CondLabel τ} (h : Layout s q pend) (ht : s.pc t = .removing)
    (he : s.remove t = (l, s')) :
    (l = .returned t ETIMEDOUT ∧ t ∈ q ∨ l = .internal) ∧ ∃ q', Layout s' q' pend := by
  have hb : (s.pc t).Blocked := by simp [ht, CondPc.Blocked]
  have hpend : pend t = [] := h.lists.pend_idle (.inl hb)
  unfold Condvar.remove at he
  by_cases hold : s.oldest = some t
  · -- `wr` is `oldest`
    rw [if_pos hold] at he
    obtain ⟨rfl, rfl⟩ := Prod.mk.inj he
    obtain ⟨q', rfl, -⟩ := chain_some.mp (hold ▸ h.lists.chain)
    refine ⟨.inl ⟨rfl, List.mem_cons_self⟩, q', h.lists.popOldest.setPc (by rw [hpend]; exact rfl), ?_⟩
    apply Threads.unplace _ (h.lists.placed_remove (show t :: q' = [] ++ t :: q' from rfl) rfl)
    exact h.threads.of_eq rfl rfl rfl
  · rw [if_neg hold] at he
    split at he
    · -- the walk stops at `p`, whose successor is `wr`
      next p hp =>
      obtain ⟨front, back, rfl⟩ := findPrev_spec h.lists.chain hp
      obtain ⟨rfl, rfl⟩ := Prod.mk.inj he
      refine ⟨.inl ⟨rfl, by simp⟩, front ++ p :: back,
        h.lists.unlink.setPc (by rw [hpend]; exact rfl), ?_⟩
      apply Threads.unplace _ (h.lists.placed_remove
        (show front ++ p :: t :: back = (front ++ [p]) ++ t :: back by simp)
        (show front ++ p :: back = (front ++ [p]) ++ back by simp))
      exact h.threads.of_eq rfl rfl rfl
    · -- the walk runs off the end: `wr` is not on the list
      next hp =>
      obtain ⟨rfl, rfl⟩ := Prod.mk.inj he
      exact ⟨.inr rfl, q, h.setPc_blocked hb trivial⟩

/-- `condvar_wake_one` hands over the head of the list, and the list goes on from the next
record. -/
theorem wakeOne {l : CondLabel τ} (h : Layout s q pend) (he : s.wakeOne w = (l, s')) :
    l = .wokeOne w q.head? ∧ Observed s q pend s' l ∧ ∃ q', Layout s' q' pend := by
  unfold Condvar.wakeOne at he
  split at he
  · next hnone =>
    obtain ⟨rfl, rfl⟩ := Prod.mk.inj he
    obtain rfl : q = [] := chain_none.mp (hnone ▸ h.lists.chain)
    exact ⟨rfl, ⟨rfl, rfl⟩, [], h⟩
  · next wr hwr =>
    obtain ⟨rfl, rfl⟩ := Prod.mk.inj he
    obtain ⟨q', rfl, hq'⟩ := chain_some.mp (hwr ▸ h.lists.chain)
    refine ⟨rfl, ⟨rfl, rfl, hq'⟩, q', h.lists.popOldest.hand, ?_⟩
    apply Threads.hand _ (.inl List.mem_cons_self)
      (h.lists.placed_remove (show wr :: q' = [] ++ wr :: q' from rfl) rfl)
    exact h.threads.of_eq rfl rfl rfl

/-- The detach of `condvar_wake_all`. -/
theorem detach {d : List τ} (h : Layout s q pend) (hidle : s.pc w = .idle)
    (hd : Chain s.next s.oldest d) :
    Layout (({ s with oldest := none, newest := none } : Condvar τ).setPc w (.wakeAll d [] s.oldest))
      [] (Function.update pend w q) := by
  obtain rfl := hd.unique h.lists.chain
  refine ⟨h.lists.detach hidle, Threads.congr (Threads.setPc_unplaced (h.threads.of_eq rfl rfl rfl)
    ?_ fun hb => False.elim hb) fun y => (Lists.placed_detach (h.lists.pend_idle (.inr hidle)) y).symm⟩
  intro hw
  simpa [hidle, CondPc.Blocked] using h.threads.placed_blocked w hw

/-- `send_lock` on a record pending with a `condvar_wake_all`, which moves on. -/
theorem send {k r : List τ} (h : Layout s q pend) (hw : pend w = k ++ x :: r)
    (hp : Pending s.next p (k ++ r)) (hwb : ¬ (s.pc w).Blocked) (hpb : ¬ p.Blocked) :
    Layout ((s.hand x).setPc w p) q (Function.update pend w (k ++ r)) := by
  have hsub : ∀ y ∈ k ++ r, y ∈ pend w := fun y hy => by
    rw [hw]
    simp only [List.mem_append, List.mem_cons] at hy ⊢
    tauto
  have hnd : (k ++ r).Nodup :=
    (List.nodup_cons.mp (List.nodup_middle.mp (hw ▸ h.lists.pend_nodup w))).2
  refine ⟨h.lists.hand.setPend hp hsub hnd, ?_⟩
  have hP := h.lists.placed_send hw
  apply Threads.setPc_unplaced _ (fun hw' => hwb (h.threads.placed_blocked w ((hP w).mp hw').1))
    (fun hb => absurd hb hpb)
  exact h.threads.hand (.inr ⟨w, by simp [hw]⟩) hP

/-- A `condvar_wake_all` moves on without handing a record over. -/
theorem advance (h : Layout s q pend) (hp : Pending s.next p (pend w)) (hwb : ¬ (s.pc w).Blocked)
    (hpb : ¬ p.Blocked) : Layout (s.setPc w p) q pend :=
  ⟨h.lists.setPc hp, h.threads.setPc_unplaced (fun hw => hwb (h.threads.placed_blocked w hw))
    (fun hb => absurd hb hpb)⟩

/-- A `condvar_wake_all` writes the `next` field of a record pending with it. -/
theorem splice {v : Option τ} (h : Layout s q pend) (hx : x ∈ pend w)
    (hp : Pending (Function.update s.next x v) p (pend w)) (hwb : ¬ (s.pc w).Blocked)
    (hpb : ¬ p.Blocked) :
    Layout (({ s with next := Function.update s.next x v } : Condvar τ).setPc w p) q pend := by
  refine ⟨h.lists.rewrite hx hp, ?_⟩
  apply Threads.setPc_unplaced _ (fun hw => hwb (h.threads.placed_blocked w hw))
    (fun hb => absurd hb hpb)
  exact h.threads.of_eq rfl rfl rfl

/-- The user mutex wakes a record handed to it. -/
theorem wake (h : Layout s q pend) (hx : 0 < s.handed x) :
    Layout { s with woken := Function.update s.woken x true } q pend :=
  ⟨h.lists.of_eq rfl rfl rfl rfl, h.threads.wake hx⟩

/-- The user mutex writes the `next` field of a record handed to it. -/
theorem write (h : Layout s q pend) (hx : 0 < s.handed x) (v : Option τ) :
    Layout { s with next := Function.update s.next x v } q pend := by
  have hnp : ¬ Placed q pend x := fun hp => by simp [h.threads.placed_handed x hp] at hx
  exact ⟨h.lists.write (fun hq => hnp (.inl hq)) (fun w hw => hnp (.inr ⟨w, hw⟩)) v,
    h.threads.of_eq rfl rfl rfl⟩

theorem migrate (h : Layout s q pend) (c : ℕ) :
    Layout { s with cpu := Function.update s.cpu t c } q pend :=
  ⟨h.lists.of_eq rfl rfl rfl rfl, h.threads.of_eq rfl rfl rfl⟩

/-! ### One lemma per action -/

section steps

variable [Fintype τ] {l : CondLabel τ}

theorem step_wait {timed : Bool} (h : Layout s q pend) (he : s.exec (.wait t timed) = some (l, s')) :
    Observed s q pend s' l ∧ ∃ q' pend', Layout s' q' pend' := by
  simp only [exec.eq_def] at he
  split at he
  · next hidle =>
    obtain ⟨s₁, hs₁, he⟩ := Option.map_eq_some_iff.mp he
    obtain ⟨rfl, rfl⟩ := Prod.mk.inj he
    exact ⟨trivial, _, _, h.enqueue hidle hs₁⟩
  · cases he

theorem step_timer (h : Layout s q pend) (he : s.exec (.timer t) = some (l, s')) :
    Observed s q pend s' l ∧ ∃ q' pend', Layout s' q' pend' := by
  simp only [exec.eq_def] at he
  split at he
  · next hpc =>
    cases he
    exact ⟨trivial, _, _, h.setPc_blocked (by simp [hpc, CondPc.Blocked]) trivial⟩
  · cases he

theorem step_checkWoken (h : Layout s q pend) (he : s.exec (.checkWoken t) = some (l, s')) :
    Observed s q pend s' l ∧ ∃ q' pend', Layout s' q' pend' := by
  simp only [exec.eq_def] at he
  split at he
  · next hpc =>
    have hb : (s.pc t).Blocked := by simp [hpc, CondPc.Blocked]
    split at he
    · next hw =>
      cases he
      exact ⟨.inl ⟨rfl, hw⟩, _, _, h.leave hb hw⟩
    · cases he
      exact ⟨trivial, _, _, h.setPc_blocked hb trivial⟩
  · cases he

theorem step_remove (h : Layout s q pend) (he : s.exec (.remove t) = some (l, s')) :
    Observed s q pend s' l ∧ ∃ q' pend', Layout s' q' pend' := by
  simp only [exec.eq_def] at he
  split at he
  · next hpc =>
    obtain ⟨hl, q', hq'⟩ := h.remove hpc (Option.some.inj he)
    refine ⟨?_, q', pend, hq'⟩
    rcases hl with ⟨rfl, ht⟩ | rfl
    · exact .inr ⟨rfl, ht⟩
    · trivial
  · cases he

theorem step_resume (h : Layout s q pend) (he : s.exec (.resume t) = some (l, s')) :
    Observed s q pend s' l ∧ ∃ q' pend', Layout s' q' pend' := by
  -- the two places `wr.wait` is called from behave alike
  have hwait : (s.pc t).Blocked →
      (if s.woken t then some (CondLabel.returned t 0, s.setPc t .idle) else none) = some (l, s') →
      Observed s q pend s' l ∧ ∃ q' pend', Layout s' q' pend' := by
    intro hb he
    split at he
    · next hw =>
      cases he
      exact ⟨.inl ⟨rfl, hw⟩, _, _, h.leave hb hw⟩
    · cases he
  simp only [exec.eq_def] at he
  split at he
  · next hpc => exact hwait (by simp [hpc, CondPc.Blocked]) he
  · next hpc => exact hwait (by simp [hpc, CondPc.Blocked]) he
  · cases he

theorem step_wakeOne (h : Layout s q pend) (he : s.exec (.wakeOne w) = some (l, s')) :
    Observed s q pend s' l ∧ ∃ q' pend', Layout s' q' pend' := by
  simp only [exec.eq_def] at he
  split at he
  · obtain ⟨-, hobs, q', hq'⟩ := h.wakeOne (Option.some.inj he)
    exact ⟨hobs, q', pend, hq'⟩
  · cases he

theorem step_wakeAll {d : List τ} (h : Layout s q pend) (ha : s.Allowed (.wakeAll w d))
    (he : s.exec (.wakeAll w d) = some (l, s')) :
    Observed s q pend s' l ∧ ∃ q' pend', Layout s' q' pend' := by
  simp only [exec.eq_def] at he
  split at he
  · next hidle =>
    cases he
    exact ⟨trivial, _, _, h.detach hidle ha⟩
  · cases he

/-- A pass of either loop of `condvar_wake_all`. -/
theorem step_wakeAllStep (h : Layout s q pend) (he : s.exec (.wakeAllStep w) = some (l, s')) :
    Observed s q pend s' l ∧ ∃ q' pend', Layout s' q' pend' := by
  have hsh := h.lists.shape w
  have hnd := h.lists.pend_nodup w
  simp only [exec.eq_def] at he
  split at he
  · -- `while (wr)`, with `wr`: `send_lock(wr)`
    next d sent wr hpc =>
    cases he
    rw [hpc] at hsh
    obtain ⟨rest, hw, hp⟩ := pending_wakeAll_some hsh (s.cpu wr)
    exact ⟨⟨by simp [hw], rfl, by simp [hpc, CondPc.sent]⟩, _, _,
      h.send (hw.trans (List.nil_append _).symm) hp (by simp [hpc, CondPc.Blocked]) id⟩
  · -- `while (wr)` ends
    next d sent hpc =>
    cases he
    rw [hpc] at hsh
    obtain ⟨hnil, hd, hperm⟩ := pending_wakeAll_none hsh
    exact ⟨⟨hd, hperm⟩, _, _, h.advance (by rw [hnil]; exact rfl) (by simp [hpc, CondPc.Blocked]) id⟩
  · -- the same-cpu loop at `r`
    next d sent c nextWr prevr r hpc =>
    rw [hpc] at hsh
    have hwb : ¬ (s.pc w).Blocked := by simp [hpc, CondPc.Blocked]
    unfold regroupStep at he
    split_ifs at he with hcpu hhead
    · cases he
      obtain ⟨rest, hw, hp⟩ := pending_regroup_head hsh hnd hhead
      exact ⟨⟨by simp [hw], rfl, by simp [hpc, CondPc.sent]⟩, _, _,
        h.send (hw.trans (List.nil_append _).symm) hp hwb id⟩
    · cases he
      obtain ⟨kept, rest, hw, hp⟩ := pending_regroup_splice hsh hhead
      exact ⟨⟨by simp [hw], rfl, by simp [hpc, CondPc.sent]⟩, _, _, h.send hw hp hwb id⟩
    · cases he
      exact ⟨trivial, _, _, h.advance (pending_regroup_keep hsh) hwb id⟩
  · -- the same-cpu loop ends: `wr = next_wr`
    next d sent c nextWr prevr hpc =>
    cases he
    rw [hpc] at hsh
    exact ⟨trivial, _, _, h.advance (pending_regroup_none hsh) (by simp [hpc, CondPc.Blocked]) id⟩
  · -- `prevr->next = nextr`
    next d sent c nextWr prevr nextr hpc =>
    rw [hpc] at hsh
    unfold Condvar.splice at he
    split at he
    · next p =>
      cases he
      obtain ⟨hx, hp⟩ := pending_splice hsh hnd
      exact ⟨trivial, _, _, h.splice hx hp (by simp [hpc, CondPc.Blocked]) id⟩
    · cases he
  · cases he

theorem step_mutexWake (h : Layout s q pend) (he : s.exec (.mutexWake x) = some (l, s')) :
    Observed s q pend s' l ∧ ∃ q' pend', Layout s' q' pend' := by
  simp only [exec.eq_def] at he
  split at he
  · next hc =>
    cases he
    exact ⟨trivial, _, _, h.wake hc.1⟩
  · cases he

theorem step_mutexWrite {v : Option τ} (h : Layout s q pend)
    (he : s.exec (.mutexWrite x v) = some (l, s')) :
    Observed s q pend s' l ∧ ∃ q' pend', Layout s' q' pend' := by
  simp only [exec.eq_def] at he
  split at he
  · next hc =>
    cases he
    exact ⟨trivial, _, _, h.write hc.1 v⟩
  · cases he

/-- **The step lemma.**  Every step keeps the invariant, and its label shows what `Observed`
says. -/
theorem step (h : Layout s q pend) {a : CondAction τ} (ha : s.Allowed a)
    (he : s.exec a = some (l, s')) : Observed s q pend s' l ∧ ∃ q' pend', Layout s' q' pend' := by
  cases a with
  | wait t timed => exact h.step_wait he
  | timer t => exact h.step_timer he
  | checkWoken t => exact h.step_checkWoken he
  | remove t => exact h.step_remove he
  | resume t => exact h.step_resume he
  | wakeOne w => exact h.step_wakeOne he
  | wakeAll w d => exact h.step_wakeAll ha he
  | wakeAllStep w => exact h.step_wakeAllStep he
  | mutexWake x => exact h.step_mutexWake he
  | mutexWrite x v => exact h.step_mutexWrite he
  | migrate t c =>
      cases he
      exact ⟨trivial, _, _, h.migrate c⟩

end steps

end Layout

/-! ## The protocol -/

variable [Fintype τ]

/-- Every reachable state is laid out. -/
theorem layout_reachable {s : Condvar τ} (hs : Reachable (condvar τ) s) :
    ∃ q pend, Layout s q pend := by
  induction hs with
  | init hinit =>
      obtain ⟨cpu, rfl⟩ := hinit
      exact ⟨_, _, layout_init cpu⟩
  | step _ hstep ih =>
      obtain ⟨q, pend, h⟩ := ih
      obtain ⟨a, ha, he⟩ := hstep
      exact (h.step ha he).2

/-- **No lost wake-up.**  The record of a thread blocked in `condvar_wait` is on the list,
or detached by a `condvar_wake_all` that has still to send it, or handed to the user mutex,
which is to wake it. -/
theorem condvar_blocked_not_lost {s : Condvar τ} (hs : Reachable (condvar τ) s) {x : τ}
    (hx : (s.pc x).Blocked) :
    (∃ queue, Chain s.next s.oldest queue ∧ x ∈ queue) ∨
      (∃ w, x ∈ (s.pc w).detached ∧ x ∉ (s.pc w).sent) ∨ s.handed x = 1 := by
  obtain ⟨q, pend, h⟩ := layout_reachable hs
  rcases h.threads.blocked x hx with (hq | ⟨w, hw⟩) | hh
  · exact .inl ⟨q, h.lists.chain, hq⟩
  · exact .inr (.inl ⟨w, (h.lists.shape w).mem hw⟩)
  · exact .inr (.inr hh)

theorem condvar_blocked_not_lost_wait : ∃ s : Condvar (Fin 2), Reachable (condvar (Fin 2)) s ∧
    (s.pc 0).Blocked ∧ ((∃ queue, Chain s.next s.oldest queue ∧ 0 ∈ queue) ∨
      (∃ w, 0 ∈ (s.pc w).detached ∧ 0 ∉ (s.pc w).sent) ∨ s.handed 0 = 1) :=
  have hs : Reachable (condvar (Fin 2)) _ := .step (.init ⟨fun _ => 0, rfl⟩) ⟨.wait 0 false, trivial, rfl⟩
  ⟨_, hs, trivial, condvar_blocked_not_lost hs trivial⟩

end Condvar

end Osv.Sync
