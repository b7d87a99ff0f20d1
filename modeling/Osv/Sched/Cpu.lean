import Mathlib.Data.Fintype.Sum
import Mathlib.Tactic.DeriveFintype
import Osv.Lib.Transition

/-!
# The scheduler: cpus, run queues and incoming wakeups

`core/sched.cc` keeps for every cpu its current thread, its `runqueue`, and for every other cpu
`i` a queue `incoming_wakeups[i]` (`lockless_queue`, `push_front` and `copy_and_clear`) with a
bit `i` of `incoming_wakeups_mask` telling it that the queue has threads.  A thread moves
through the values of `_status`: `wake()` takes it from `waiting` to `waking` by a
compare-exchange and pushes it on `_cpu->incoming_wakeups[c]` for its own cpu `c`;
`handle_incoming_wakeups` on `_cpu` takes it off and makes it `queued` on the run queue, or
`running` when it is the current thread, not yet switched out; `reschedule_from_interrupt`
requeues the current thread or lets it go and switches to a queued one; `load_balance` moves a
queued thread to another cpu through the same queues.

The model has a step for each access to a shared field: the exchange of `wake` and its
`push_front` and bit set, which other cpus see one at a time; each part of
`handle_incoming_wakeups`, which runs as a frame of the thread that called it (`do_idle` calls
it with interrupts enabled, and the idle thread may be preempted inside it); and the decision
of `reschedule_from_interrupt` after its call of `handle_incoming_wakeups`, which runs with
interrupts disabled and touches only its own cpu.  The threads are the idle thread of every
cpu and the others (`Thread`); for the latter `pc` says where they are in `wait_until`'s
`wait_guard`, in `stop_wait`, or in `complete`.  Run times are not modelled: where
`reschedule_from_interrupt` and `yield` compare them, both outcomes are steps.

The mask `handle_incoming_wakeups` fetches is the set of cpus it still has to visit
(`Frame.queuesWithWakes`), taken in any order.  That is the `cpu_set` walk on a machine of at
most `63` cpus: without cpu `63` the walk visits each cpu of the set once, in increasing order,
and ends (`Osv.Sched.CpuSet.visit_begin`).  With a 64th cpu the walk starts again after bit `63`
and never ends (`Osv.Sched.CpuSet.visit_of_has_63`), which the set does not model: for any
number of cpus the model is the code of a machine whose cpu numbers stay below `63`.
-/

namespace Osv.Sched

open Transition

/-- `thread::status`. -/
inductive Status where
  | invalid
  | prestarted
  | unstarted
  | waiting
  | running
  | queued
  /-- Between `waiting` and `queued`. -/
  | waking
  | terminating
  | terminated
  deriving DecidableEq

/-- A thread: the idle thread of a cpu (`cpu::idle_thread`, pinned to it), or another one. -/
inductive Thread (κ τ : Type*) where
  | idle (x : κ)
  | user (t : τ)
  deriving DecidableEq, Fintype

/-- What `handle_incoming_wakeups` returns to. -/
inductive Cont where
  /-- `cpu::reschedule_from_interrupt`, which then decides whom to run. -/
  | reschedule
  /-- `thread::yield`. -/
  | yield
  /-- `cpu::do_idle`. -/
  | idle
  deriving DecidableEq

/-- A call of `handle_incoming_wakeups` in progress. -/
structure Frame (κ τ : Type*) where
  /-- `queues_with_wakes`: the bits fetched from `incoming_wakeups_mask`, less those done. -/
  queuesWithWakes : Finset κ
  /-- The local queue `q` taken from `incoming_wakeups[i]` by `copy_and_clear`. -/
  q : List (Thread κ τ)
  cont : Cont

/-- Where a thread other than an idle thread is. -/
inductive ThreadPc where
  /-- Running its own code. -/
  | run
  /-- In `do_wait_until`, after `wait_guard`'s `prepare_wait`, about to test the predicate. -/
  | prepared
  /-- At the compare-exchange of `stop_wait`. -/
  | stopWait
  /-- In `stop_wait`'s loop `while (_status.load() == status::waking) schedule()`. -/
  | stopLoop
  /-- In `complete()`'s loop of `schedule()`. -/
  | completing
  deriving DecidableEq

/-- The scheduler's state: the fields of the threads and cpus, and the wakes in progress. -/
structure Machine (κ τ : Type*) where
  status : Thread κ τ → Status
  /-- `thread::_cpu`. -/
  cpu : Thread κ τ → κ
  pc : Thread κ τ → ThreadPc
  /-- The calls of `handle_incoming_wakeups` a thread is inside, innermost first. -/
  frames : Thread κ τ → List (Frame κ τ)
  current : κ → Thread κ τ
  runqueue : κ → List (Thread κ τ)
  /-- `incomingWakeups x i` is cpu `x`'s `incoming_wakeups[i]`, front first. -/
  incomingWakeups : κ → κ → List (Thread κ τ)
  incomingWakeupsMask : κ → Finset κ
  /-- A `wake()` from cpu `c` (or a migration by `load_balance` on `c`) whose status change is
  done and whose `push_front` is to come. -/
  pushing : Thread κ τ → Option κ
  /-- Pushes done whose bit `c` of cpu `x`'s mask is still to be set, as pairs `(x, c)`. -/
  setting : List (κ × κ)

/-- What a step shows: the wakeups made and consumed. -/
inductive SchedLabel (κ τ : Type*) where
  /-- A successful `wake()` (`waiting` to `waking`), or the `wake()` of `start()`. -/
  | woke (t : Thread κ τ)
  /-- `load_balance` takes `t` off its run queue (`queued` to `waking`). -/
  | migrated (t : Thread κ τ)
  /-- `handle_incoming_wakeups` makes `t` running (`direct`, the current thread) or queued. -/
  | processed (t : Thread κ τ) (direct : Bool)
  | internal
  deriving DecidableEq

/-- A step of some thread, cpu or interrupt.  The steps of a cpu `x` are taken by its current
thread. -/
inductive SchedAction (κ τ : Type*) where
  /-- `thread::wake()` of `t`, called on cpu `c`. -/
  | wake (c : κ) (t : Thread κ τ)
  /-- `thread::start()` of `t` on cpu `c`, with its `wake()`. -/
  | start (c : κ) (t : τ)
  /-- The `push_front` of a wake or migration in progress. -/
  | push (t : Thread κ τ)
  /-- The bit set `incoming_wakeups_mask.test_all_and_set(c)` (or `.set(c)`) on cpu `x`. -/
  | setMask (x c : κ)
  /-- `load_balance` on cpu `x` moves `t` to cpu `y`. -/
  | migrate (x : κ) (t : τ) (y : κ)
  /-- `wait_guard`'s `prepare_wait()`. -/
  | prepareWait (x : κ)
  /-- The predicate holds: `return`, and `stop_wait()`. -/
  | predTrue (x : κ)
  /-- The predicate fails: `wait()`, that is `schedule()`. -/
  | wait (x : κ)
  | stopWait (x : κ)
  | stopLoop (x : κ)
  | yield (x : κ)
  | complete (x : κ)
  | completeLoop (x : κ)
  /-- `do_idle`'s call of `handle_incoming_wakeups`. -/
  | doIdle (x : κ)
  /-- `cpu::idle`'s `schedule()`, once `do_idle` has found the run queue not empty. -/
  | idleSchedule (x : κ)
  /-- An interrupt calls `reschedule_from_interrupt` on a preemptible thread. -/
  | preempt (x : κ)
  /-- `handle_incoming_wakeups` takes the front of `q`. -/
  | process (x : κ)
  /-- `handle_incoming_wakeups` takes `incoming_wakeups[i]` by `copy_and_clear`. -/
  | copy (x i : κ)
  /-- `handle_incoming_wakeups` returns to `yield` or `do_idle`. -/
  | finish (x : κ)
  /-- `yield` finds a thread to yield to and calls `reschedule_from_interrupt`. -/
  | yieldReschedule (x : κ)
  /-- `reschedule_from_interrupt` keeps the current thread running. -/
  | keep (x : κ)
  /-- `reschedule_from_interrupt` switches to `n`, the front of the run queue. -/
  | switchTo (x : κ) (n : Thread κ τ)

namespace Thread

variable {κ τ : Type*}

/-- Not an idle thread. -/
def IsUser : Thread κ τ → Prop
  | .idle _ => False
  | .user _ => True

instance : DecidablePred (IsUser : Thread κ τ → Prop) := fun t =>
  match t with
  | .idle _ => isFalse id
  | .user _ => isTrue trivial

end Thread

namespace Machine

variable {κ τ : Type*}

/-- The initial states: every cpu runs its idle thread, no other thread is started. -/
structure Initial (s : Machine κ τ) : Prop where
  status_idle : ∀ x, s.status (.idle x) = .running
  status_user : ∀ t, s.status (.user t) = .unstarted
  cpu_idle : ∀ x, s.cpu (.idle x) = x
  pc : ∀ t, s.pc t = .run
  frames : ∀ t, s.frames t = []
  current : ∀ x, s.current x = .idle x
  runqueue : ∀ x, s.runqueue x = []
  incomingWakeups : ∀ x i, s.incomingWakeups x i = []
  incomingWakeupsMask : ∀ x, s.incomingWakeupsMask x = ∅
  pushing : ∀ t, s.pushing t = none
  setting : s.setting = []

variable [DecidableEq κ] [DecidableEq τ]

/-- `t`'s status becomes `st`. -/
def setStatus (s : Machine κ τ) (t : Thread κ τ) (st : Status) : Machine κ τ :=
  { s with status := Function.update s.status t st }

/-- `t` goes on at `p`. -/
def setPc (s : Machine κ τ) (t : Thread κ τ) (p : ThreadPc) : Machine κ τ :=
  { s with pc := Function.update s.pc t p }

/-- `t`'s frames become `fs`. -/
def setFrames (s : Machine κ τ) (t : Thread κ τ) (fs : List (Frame κ τ)) : Machine κ τ :=
  { s with frames := Function.update s.frames t fs }

/-- `t`'s status changes and a push to `_cpu->incoming_wakeups[c]` is to come. -/
def startPush (s : Machine κ τ) (t : Thread κ τ) (st : Status) (c : κ) : Machine κ τ :=
  { s with status := Function.update s.status t st, pushing := Function.update s.pushing t (some c) }

/-- The run queue of `x` becomes `l`. -/
def setRunqueue (s : Machine κ τ) (x : κ) (l : List (Thread κ τ)) : Machine κ τ :=
  { s with runqueue := Function.update s.runqueue x l }

/-- `handle_incoming_wakeups` called by `h` on cpu `x`, returning to `c`: its
`incoming_wakeups_mask.fetch_clear()`. -/
def beginHandle (s : Machine κ τ) (h : Thread κ τ) (x : κ) (c : Cont) : Machine κ τ :=
  { s with
    incomingWakeupsMask := Function.update s.incomingWakeupsMask x ∅
    frames := Function.update s.frames h (⟨s.incomingWakeupsMask x, [], c⟩ :: s.frames h) }

/-- `push_front(t)` on `_cpu->incoming_wakeups[c]`, with the bit set to come. -/
def pushFront (s : Machine κ τ) (t : Thread κ τ) (c : κ) : Machine κ τ :=
  { s with
    incomingWakeups := Function.update s.incomingWakeups (s.cpu t)
      (Function.update (s.incomingWakeups (s.cpu t)) c (t :: s.incomingWakeups (s.cpu t) c))
    pushing := Function.update s.pushing t none
    setting := (s.cpu t, c) :: s.setting }

/-- `copy_and_clear` of cpu `x`'s `incoming_wakeups[i]` into the frame `f` of `h`, the rest of
`h`'s frames being `rest`. -/
def copyAndClear (s : Machine κ τ) (h : Thread κ τ) (f : Frame κ τ) (rest : List (Frame κ τ))
    (x i : κ) : Machine κ τ :=
  { s with
    incomingWakeups := Function.update s.incomingWakeups x (Function.update (s.incomingWakeups x) i [])
    frames := Function.update s.frames h
      (⟨f.queuesWithWakes.erase i, s.incomingWakeups x i, f.cont⟩ :: rest) }

/-- `handle_incoming_wakeups` on cpu `x`, in a frame of its current thread `h` whose local queue
is `t :: q`: the thread is made running if it is `h`, else queued on `x`. -/
def processFront (s : Machine κ τ) (h : Thread κ τ) (f : Frame κ τ) (rest : List (Frame κ τ))
    (x : κ) (t : Thread κ τ) (q : List (Thread κ τ)) : SchedLabel κ τ × Machine κ τ :=
  let s₁ := s.setFrames h (⟨f.queuesWithWakes, q, f.cont⟩ :: rest)
  if t = h then (.processed t true, s₁.setStatus t .running)
  else (.processed t false, (s₁.setStatus t .queued).setRunqueue x (t :: s.runqueue x))

/-- The end of `reschedule_from_interrupt` on cpu `x` switching from `p` to `n`: `p` is
requeued if it is still running, `n` leaves the run queue and runs. -/
def switchThread (s : Machine κ τ) (x : κ) (p n : Thread κ τ) (rest : List (Frame κ τ)) :
    Machine κ τ :=
  let s₁ := s.setFrames p rest
  let s₂ :=
    if s.status p = .running then (s₁.setStatus p .queued).setRunqueue x (p :: (s.runqueue x).erase n)
    else s₁.setRunqueue x ((s.runqueue x).erase n)
  { s₂.setStatus n .running with current := Function.update s.current x n }

/-- A thread may be preempted outside the sections where preemption or interrupts are off: in
its own code, in `stop_wait`'s loop, or between the steps of `do_idle`'s
`handle_incoming_wakeups`. -/
def Preemptible (s : Machine κ τ) (h : Thread κ τ) : Prop :=
  (s.frames h = [] ∧ (s.pc h = .run ∨ s.pc h = .stopLoop)) ∨
    ∃ f rest, s.frames h = f :: rest ∧ f.cont = .idle

instance (s : Machine κ τ) (h : Thread κ τ) : Decidable (s.Preemptible h) :=
  match hf : s.frames h with
  | [] => decidable_of_iff (s.pc h = .run ∨ s.pc h = .stopLoop) (by simp [Preemptible, hf])
  | f :: rest => decidable_of_iff (f.cont = .idle) (by simp [Preemptible, hf])

variable [Fintype κ]

/-- `load_balance` on `x` may move `t` to `y`: `t` is on `x`'s run queue and not pinned, and
`y` has the least load, less than `x`'s by more than one. -/
def MigrationOk (pinned : τ → Option κ) (s : Machine κ τ) (x : κ) (t : τ) (y : κ) : Prop :=
  .user t ∈ s.runqueue x ∧ pinned t = none ∧ y ≠ x ∧
    (s.runqueue y).length + 1 < (s.runqueue x).length ∧
    ∀ z, (s.runqueue y).length ≤ (s.runqueue z).length

instance (pinned : τ → Option κ) (s : Machine κ τ) (x : κ) (t : τ) (y : κ) :
    Decidable (MigrationOk pinned s x t y) :=
  inferInstanceAs (Decidable (_ ∧ _))

/-- One step, or `none` when it cannot be taken.  `pinned t` is `t`'s `_attr.pinned_cpu`. -/
def exec (pinned : τ → Option κ) (s : Machine κ τ) :
    SchedAction κ τ → Option (SchedLabel κ τ × Machine κ τ)
  | .wake c t =>
      -- `compare_exchange_strong(waiting, waking)`; when it fails `wake()` returns
      if s.status t = .waiting then some (.woke t, s.startPush t .waking c) else some (.internal, s)
  | .start c t =>
      if s.status (.user t) = .unstarted then
        some (.woke (.user t),
          { s.startPush (.user t) .waking c with
            cpu := Function.update s.cpu (.user t) ((pinned t).getD c) })
      else none
  | .push t =>
      match s.pushing t with
      | some c => some (.internal, s.pushFront t c)
      | none => none
  | .setMask x c =>
      if (x, c) ∈ s.setting then
        some (.internal,
          { s with
            incomingWakeupsMask := Function.update s.incomingWakeupsMask x (insert c (s.incomingWakeupsMask x))
            setting := s.setting.erase (x, c) })
      else none
  | .migrate x t y =>
      if MigrationOk pinned s x t y then
        some (.migrated (.user t),
          { (s.setRunqueue x ((s.runqueue x).erase (.user t))).startPush (.user t) .waking x with
            cpu := Function.update s.cpu (.user t) y })
      else none
  | .prepareWait x =>
      let h := s.current x
      if h.IsUser ∧ s.frames h = [] ∧ s.pc h = .run then
        some (.internal, (s.setStatus h .waiting).setPc h .prepared)
      else none
  | .predTrue x =>
      let h := s.current x
      if s.frames h = [] ∧ s.pc h = .prepared then some (.internal, s.setPc h .stopWait) else none
  | .wait x =>
      let h := s.current x
      if s.frames h = [] ∧ s.pc h = .prepared then
        some (.internal, (s.setPc h .stopWait).beginHandle h x .reschedule)
      else none
  | .stopWait x =>
      let h := s.current x
      if s.frames h = [] ∧ s.pc h = .stopWait then
        -- `compare_exchange_strong(waiting, running)`
        if s.status h = .waiting then some (.internal, (s.setStatus h .running).setPc h .run)
        else some (.internal, s.setPc h .stopLoop)
      else none
  | .stopLoop x =>
      let h := s.current x
      if s.frames h = [] ∧ s.pc h = .stopLoop then
        if s.status h = .waking then some (.internal, s.beginHandle h x .reschedule)
        else some (.internal, s.setPc h .run)
      else none
  | .yield x =>
      let h := s.current x
      if h.IsUser ∧ s.frames h = [] ∧ s.pc h = .run then
        some (.internal, s.beginHandle h x .yield)
      else none
  | .complete x =>
      let h := s.current x
      if h.IsUser ∧ s.frames h = [] ∧ s.pc h = .run then
        some (.internal, (s.setStatus h .terminating).setPc h .completing)
      else none
  | .completeLoop x =>
      let h := s.current x
      if s.frames h = [] ∧ s.pc h = .completing then
        some (.internal, s.beginHandle h x .reschedule)
      else none
  | .doIdle x =>
      if s.current x = .idle x ∧ s.frames (.idle x) = [] then
        some (.internal, s.beginHandle (.idle x) x .idle)
      else none
  | .idleSchedule x =>
      if s.current x = .idle x ∧ s.frames (.idle x) = [] ∧ s.runqueue x ≠ [] then
        some (.internal, s.beginHandle (.idle x) x .reschedule)
      else none
  | .preempt x =>
      let h := s.current x
      if s.Preemptible h then some (.internal, s.beginHandle h x .reschedule) else none
  | .process x =>
      let h := s.current x
      match s.frames h with
      | f :: rest =>
          match f.q with
          | t :: q => some (s.processFront h f rest x t q)
          | [] => none
      | [] => none
  | .copy x i =>
      let h := s.current x
      match s.frames h with
      | f :: rest =>
          if f.q = [] ∧ i ∈ f.queuesWithWakes then some (.internal, s.copyAndClear h f rest x i)
          else none
      | [] => none
  | .finish x =>
      let h := s.current x
      match s.frames h with
      | f :: rest =>
          if f.q = [] ∧ f.queuesWithWakes = ∅ ∧ f.cont ≠ .reschedule then
            some (.internal, s.setFrames h rest)
          else none
      | [] => none
  | .yieldReschedule x =>
      let h := s.current x
      match s.frames h with
      | f :: rest =>
          if f.q = [] ∧ f.queuesWithWakes = ∅ ∧ f.cont = .yield ∧ s.runqueue x ≠ [] then
            some (.internal, (s.setFrames h rest).beginHandle h x .reschedule)
          else none
      | [] => none
  | .keep x =>
      let h := s.current x
      match s.frames h with
      | f :: rest =>
          if f.q = [] ∧ f.queuesWithWakes = ∅ ∧ f.cont = .reschedule ∧ s.status h = .running then
            some (.internal, s.setFrames h rest)
          else none
      | [] => none
  | .switchTo x n =>
      let h := s.current x
      match s.frames h with
      | f :: rest =>
          if f.q = [] ∧ f.queuesWithWakes = ∅ ∧ f.cont = .reschedule ∧ n ∈ s.runqueue x then
            some (.internal, s.switchThread x h n rest)
          else none
      | [] => none

end Machine

/-- The scheduler of a machine with cpus `κ` and threads `τ` besides the idle threads, as a
transition system. -/
def sched {κ τ : Type*} [DecidableEq κ] [DecidableEq τ] [Fintype κ] (pinned : τ → Option κ) :
    System (Machine κ τ) (SchedLabel κ τ) where
  init s := s.Initial
  step s l s' := ∃ a, s.exec pinned a = some (l, s')

end Osv.Sched
