import Mathlib
import Osv.Lib.Transition

/-!
# `lockfree::mutex`

`core/lfmutex.cc` is OSv's mutex: a counter `count` of the lock attempts in progress, a
`queue_mpsc` of `wait_record`s of the threads that sleep on it, and the *responsibility
hand-off* (RHO) of Gidenstam and Papatriantafilou between an `unlock()` that found nobody to wake
and a concurrent `lock()` that has counted itself but not yet queued its record: the unlocker
leaves a token, a non-zero sequence number, in `handoff`, and whoever takes it back with a
compare-exchange, the unlocker itself, a `lock()`, a `send_lock()` or a `try_lock()`, takes over
the duty of waking a waiter.  `owner` and `depth` make the mutex recursive.  `send_lock(wr)` and
`receive_lock()` serve the wait morphing of `condvar`: the record of a thread asleep on a condvar
is queued on the mutex, and its thread takes the mutex when the record is woken.

The model has one step for each access of a shared field: each `fetch_add` or compare-exchange
of `count`, each load, store or compare-exchange of `handoff`, each `push`, `pop` and `empty` of
the wait queue, each load or store of `owner` (with the owner's own `depth` beside it), and each
`wake()` of a `wait_record`.  Memory is sequentially consistent, and the wait queue is a FIFO
of records whose `push` and `pop` are single steps (`Osv.Lockfree.queueMpsc_refines_fifo`
proves that `queue_mpsc` is one).  A record is named by its thread: a thread in `lock()` owns
the record `waiter` on its stack, a thread asleep on a condvar the record it waits on.  The
sequence number is the code's 32-bit `unsigned int`, and its non-atomic `++sequence` is one
step.  A failed `assert` is a step that cannot be taken.

The threads' environment may call the five operations at any time the code's contracts allow:
`unlock()` only by the thread that holds the mutex, `send_lock(wr)` only for a record whose
thread is asleep on a condvar and does not hold the mutex (`park`), which the condvar may also
wake itself (`unpark`).  `held` is ghost state: the threads between taking the mutex and
giving it up in `unlock()`.
-/

namespace Osv.Lockfree

open Transition

namespace Mutex

/-- Where a thread is in `mutex::lock()`, after its `count.fetch_add(1)`. -/
inductive LockPc (τ : Type*) where
  /-- `owner.load() == current`: the count was not zero. -/
  | ownerLoad
  /-- A recursive lock: `count.fetch_add(-1)` and `++depth`. -/
  | undo
  /-- `waitqueue.push(&waiter)`. -/
  | push
  /-- `old_handoff = handoff.load()`. -/
  | handoffLoad
  /-- `!waitqueue.empty()`, the handoff `old` read. -/
  | emptyCheck (old : UInt32)
  /-- `handoff.compare_exchange_strong(old_handoff, 0U)`. -/
  | cas (old : UInt32)
  /-- `waitqueue.pop()`, the handoff taken. -/
  | pop
  /-- `other->wake()`. -/
  | wake (other : τ)
  /-- `waiter.wait()`. -/
  | wait
  /-- `owner.store(current)` and `depth = 1`: the mutex is taken. -/
  | set
  deriving DecidableEq

/-- Where a thread is in `mutex::unlock()`, after its `--depth`. -/
inductive UnlockPc (τ : Type*) where
  /-- `owner.store(nullptr)`: the depth is down to zero. -/
  | ownerClear
  /-- `count.fetch_add(-1)`. -/
  | dec
  /-- `waitqueue.pop()` in the loop. -/
  | pop
  /-- `other->wake()`. -/
  | wake (other : τ)
  /-- `if (++sequence == 0U) ++sequence`. -/
  | seq
  /-- `handoff.store(ourhandoff)`. -/
  | store (ourhandoff : UInt32)
  /-- `waitqueue.empty()`. -/
  | emptyCheck (ourhandoff : UInt32)
  /-- `handoff.compare_exchange_strong(ourhandoff, 0U)`. -/
  | cas (ourhandoff : UInt32)
  deriving DecidableEq

/-- Where a thread is in `mutex::try_lock()`, after its `count.compare_exchange_strong(0, 1)`. -/
inductive TryLockPc where
  /-- `owner.load() == current`: the count was not zero. -/
  | ownerLoad
  /-- `old_handoff = handoff.load()`. -/
  | handoffLoad
  /-- `handoff.compare_exchange_strong(old_handoff, 0U)`. -/
  | cas (old : UInt32)
  /-- `count.fetch_add(1)`, the handoff taken. -/
  | add
  /-- `owner.store(current)` and `depth = 1`. -/
  | set
  deriving DecidableEq

/-- Where a thread is in `mutex::send_lock(wr)`, after its `count.fetch_add(1)`. -/
inductive SendLockPc (τ : Type*) where
  /-- `wr->wake()`: the count was zero. -/
  | wakeNow
  /-- `waitqueue.push(wr)`. -/
  | push
  /-- `old_handoff = handoff.load()`. -/
  | handoffLoad
  /-- `!waitqueue.empty()`. -/
  | emptyCheck (old : UInt32)
  /-- `handoff.compare_exchange_strong(old_handoff, 0U)`. -/
  | cas (old : UInt32)
  /-- `waitqueue.pop()`, the handoff taken. -/
  | pop
  /-- `other->wake()`. -/
  | wake (other : τ)
  deriving DecidableEq

/-- What a thread is doing with the mutex. -/
inductive Proc (τ : Type*) where
  /-- In none of its calls: in its own code, which may be its critical section. -/
  | idle
  | lock (pc : LockPc τ)
  | unlock (pc : UnlockPc τ)
  | tryLock (pc : TryLockPc)
  /-- In `send_lock(wr)`, for the record of `wr`. -/
  | sendLock (wr : τ) (pc : SendLockPc τ)
  /-- Asleep in `condvar_wait` on its own record, which was handed to `send_lock` if `sent`. -/
  | parked (sent : Bool)
  deriving DecidableEq

end Mutex

/-- A `lockfree::mutex` and the threads using it. -/
structure Mutex (τ : Type*) where
  count : ℤ
  depth : ℕ
  owner : Option τ
  /-- The records on `waitqueue`, oldest first, each named by its thread. -/
  waitqueue : List τ
  handoff : UInt32
  sequence : UInt32
  proc : τ → Mutex.Proc τ
  /-- `thread()` of the thread's record is null: the record was woken. -/
  woken : τ → Bool
  /-- Ghost: the threads that took the mutex and have not yet released it. -/
  held : τ → Bool

namespace Mutex

variable {τ : Type*}

/-- `mutex()`: everything zero, no thread in a call. -/
def init : Mutex τ where
  count := 0
  depth := 0
  owner := none
  waitqueue := []
  handoff := 0
  sequence := 0
  proc _ := .idle
  woken _ := false
  held _ := false

/-- `if (++sequence == 0U) ++sequence`: the next sequence number, never zero. -/
def nextSequence (sequence : UInt32) : UInt32 :=
  if sequence + 1 = 0 then sequence + 2 else sequence + 1

variable [DecidableEq τ]

/-- `t` goes on at `p`. -/
def setProc (s : Mutex τ) (t : τ) (p : Proc τ) : Mutex τ :=
  { s with proc := Function.update s.proc t p }

/-- `t` has taken the mutex: `owner.store(current)` and `depth = 1`. -/
def take (s : Mutex τ) (t : τ) : Mutex τ :=
  { s with
    owner := some t
    depth := 1
    held := Function.update s.held t true
    proc := Function.update s.proc t .idle }

/-- `other->wake()` by `t`, which goes on at `p`. -/
def wakeRecord (s : Mutex τ) (t other : τ) (p : Proc τ) : Mutex τ :=
  { s with woken := Function.update s.woken other true, proc := Function.update s.proc t p }

/-- `mutex::lock()` called by `t`: `count.fetch_add(1)`, which took the mutex if the count was
zero. -/
def lock (s : Mutex τ) (t : τ) : Mutex τ :=
  { s with
    count := s.count + 1
    proc := Function.update s.proc t (.lock (if s.count = 0 then .set else .ownerLoad)) }

/-- The next step of `t` in `mutex::lock()`; `none` where it waits or an `assert` fails. -/
def lockStep (s : Mutex τ) (t : τ) : LockPc τ → Option (Mutex τ)
  | .ownerLoad => some (s.setProc t (.lock (if s.owner = some t then .undo else .push)))
  | .undo =>
      some { s with
        count := s.count - 1
        depth := s.depth + 1
        proc := Function.update s.proc t .idle }
  | .push =>
      -- `wait_record waiter(current)`, then `waitqueue.push(&waiter)`
      some { s with
        waitqueue := s.waitqueue ++ [t]
        woken := Function.update s.woken t false
        proc := Function.update s.proc t (.lock .handoffLoad) }
  | .handoffLoad =>
      some (s.setProc t (.lock (if s.handoff ≠ 0 then .emptyCheck s.handoff else .wait)))
  | .emptyCheck old => some (s.setProc t (.lock (if s.waitqueue ≠ [] then .cas old else .wait)))
  | .cas old =>
      if s.handoff = old then
        some { s with handoff := 0, proc := Function.update s.proc t (.lock .pop) }
      else some (s.setProc t (.lock .wait))
  | .pop =>
      match s.waitqueue with
      | other :: rest =>
          -- `other->thread() != current`: a woken record has no thread
          some { s with
            waitqueue := rest
            proc := Function.update s.proc t
              (.lock (if s.woken other = true ∨ other ≠ t then .wake other else .set)) }
      -- `assert(other)`
      | [] => none
  | .wake other =>
      -- `assert(waiter.thread())`
      if s.woken t then none else some (s.wakeRecord t other (.lock .wait))
  | .wait => if s.woken t then some (s.setProc t (.lock .set)) else none
  | .set => some (s.take t)

/-- `mutex::unlock()` called by `t`: its two `assert`s and `--depth`. -/
def unlock (s : Mutex τ) (t : τ) : Option (Mutex τ) :=
  if s.owner = some t ∧ s.depth ≠ 0 then
    some { s with
      depth := s.depth - 1
      proc := Function.update s.proc t (if s.depth - 1 ≠ 0 then .idle else .unlock .ownerClear) }
  else none

/-- The next step of `t` in `mutex::unlock()`. -/
def unlockStep (s : Mutex τ) (t : τ) : UnlockPc τ → Option (Mutex τ)
  | .ownerClear =>
      some { s with
        owner := none
        held := Function.update s.held t false
        proc := Function.update s.proc t (.unlock .dec) }
  | .dec =>
      some { s with
        count := s.count - 1
        proc := Function.update s.proc t (if s.count = 1 then .idle else .unlock .pop) }
  | .pop =>
      match s.waitqueue with
      | other :: rest =>
          some { s with
            waitqueue := rest
            proc := Function.update s.proc t (.unlock (.wake other)) }
      | [] => some (s.setProc t (.unlock .seq))
  | .wake other =>
      -- `assert(other->thread() != current)`
      if s.woken other = false ∧ other = t then none else some (s.wakeRecord t other .idle)
  | .seq =>
      some { s with
        sequence := nextSequence s.sequence
        proc := Function.update s.proc t (.unlock (.store (nextSequence s.sequence))) }
  | .store ourhandoff =>
      some { s with
        handoff := ourhandoff
        proc := Function.update s.proc t (.unlock (.emptyCheck ourhandoff)) }
  | .emptyCheck ourhandoff =>
      some (s.setProc t (if s.waitqueue = [] then .idle else .unlock (.cas ourhandoff)))
  | .cas ourhandoff =>
      if s.handoff = ourhandoff then
        some { s with handoff := 0, proc := Function.update s.proc t (.unlock .pop) }
      else some (s.setProc t .idle)

/-- `mutex::try_lock()` called by `t`: `count.compare_exchange_strong(0, 1)`. -/
def tryLock (s : Mutex τ) (t : τ) : Mutex τ :=
  if s.count = 0 then { s with count := 1, proc := Function.update s.proc t (.tryLock .set) }
  else s.setProc t (.tryLock .ownerLoad)

/-- The next step of `t` in `mutex::try_lock()`. -/
def tryLockStep (s : Mutex τ) (t : τ) : TryLockPc → Option (Mutex τ)
  | .ownerLoad =>
      if s.owner = some t then
        some { s with depth := s.depth + 1, proc := Function.update s.proc t .idle }
      else some (s.setProc t (.tryLock .handoffLoad))
  | .handoffLoad =>
      some (s.setProc t (if s.handoff ≠ 0 then .tryLock (.cas s.handoff) else .idle))
  | .cas old =>
      if s.handoff = old then
        some { s with handoff := 0, proc := Function.update s.proc t (.tryLock .add) }
      else some (s.setProc t .idle)
  | .add =>
      some { s with count := s.count + 1, proc := Function.update s.proc t (.tryLock .set) }
  | .set => some (s.take t)

/-- `mutex::send_lock(wr)` called by `t` for the record of `wr`: `count.fetch_add(1)`. -/
def sendLock (s : Mutex τ) (t wr : τ) : Mutex τ :=
  { s with
    count := s.count + 1
    proc := Function.update (Function.update s.proc wr (.parked true)) t
      (.sendLock wr (if s.count = 0 then .wakeNow else .push)) }

/-- The next step of `t` in `mutex::send_lock(wr)`. -/
def sendLockStep (s : Mutex τ) (t wr : τ) : SendLockPc τ → Option (Mutex τ)
  | .wakeNow => some (s.wakeRecord t wr .idle)
  | .push =>
      some { s with
        waitqueue := s.waitqueue ++ [wr]
        proc := Function.update s.proc t (.sendLock wr .handoffLoad) }
  | .handoffLoad =>
      some (s.setProc t (if s.handoff ≠ 0 then .sendLock wr (.emptyCheck s.handoff) else .idle))
  | .emptyCheck old =>
      some (s.setProc t (if s.waitqueue ≠ [] then .sendLock wr (.cas old) else .idle))
  | .cas old =>
      if s.handoff = old then
        some { s with handoff := 0, proc := Function.update s.proc t (.sendLock wr .pop) }
      else some (s.setProc t .idle)
  | .pop =>
      match s.waitqueue with
      | other :: rest =>
          some { s with
            waitqueue := rest
            proc := Function.update s.proc t (.sendLock wr (.wake other)) }
      -- `assert(other)`
      | [] => none
  | .wake other => some (s.wakeRecord t other .idle)

/-- `mutex::receive_lock()` by `t`, whose record was woken by the mutex. -/
def receiveLock (s : Mutex τ) (t : τ) : Mutex τ := s.take t

/-- `mutex::owned()` asked by `t`: `owner.load() == current`. -/
def owned (s : Mutex τ) (t : τ) : Bool := decide (s.owner = some t)

/-- What the threads may do: call an operation, or take the next step of the one they are in. -/
inductive Action (τ : Type*) where
  | lock (t : τ)
  | tryLock (t : τ)
  /-- `unlock()` by the thread that holds the mutex. -/
  | unlock (t : τ)
  /-- `send_lock(wr)` by `t`. -/
  | sendLock (t wr : τ)
  /-- `condvar_wait` puts `t` to sleep on a fresh record, the mutex released. -/
  | park (t : τ)
  /-- The condvar wakes `t`, whose record was never handed to the mutex. -/
  | unpark (t : τ)
  /-- The next step of `t`. -/
  | step (t : τ)

/-- One step, or `none` when it cannot be taken. -/
def exec (s : Mutex τ) : Action τ → Option (Mutex τ)
  | .lock t => if s.proc t = .idle then some (s.lock t) else none
  | .tryLock t => if s.proc t = .idle then some (s.tryLock t) else none
  | .unlock t => if s.proc t = .idle ∧ s.held t = true then s.unlock t else none
  | .sendLock t wr =>
      if s.proc t = .idle ∧ s.proc wr = .parked false then some (s.sendLock t wr) else none
  | .park t =>
      if s.proc t = .idle ∧ s.held t = false then
        some { s with
          proc := Function.update s.proc t (.parked false)
          woken := Function.update s.woken t false }
      else none
  | .unpark t => if s.proc t = .parked false then some (s.setProc t .idle) else none
  | .step t =>
      match s.proc t with
      | .idle => none
      | .lock pc => s.lockStep t pc
      | .unlock pc => s.unlockStep t pc
      | .tryLock pc => s.tryLockStep t pc
      | .sendLock wr pc => s.sendLockStep t wr pc
      | .parked true => if s.woken t then some (s.receiveLock t) else none
      | .parked false => none

end Mutex

/-- The mutex and any number of threads `τ` using it, from `mutex()`. -/
def mutex (τ : Type*) [DecidableEq τ] : System (Mutex τ) (Mutex.Action τ) :=
  System.ofFun (· = Mutex.init) Mutex.exec

end Osv.Lockfree
