import Mathlib.Data.Fintype.Card
import Osv.Lib.Count
import Osv.Lib.Transition

/-!
# `rwlock`

`core/rwlock.cc` keeps its state in counters under the mutex `_mtx`: the number of read locks
held, the numbers of threads waiting to read and to write, the write owner and its recursion
depth.  Blocked threads wait on the condvars `_cond_readers` and `_cond_writers`, which
`runlock` and `wunlock` wake after releasing `_mtx`, reading the waiter counters without it.

The model has one step per critical section under `_mtx`, one per test and per wake that
`runlock` and `wunlock` make after it, and the steps of `downgrade`, which keeps `_mtx` across
its calls of `wunlock`.  The condvars are their lists of waiters: a wait appends the thread,
`wake_one` wakes the oldest, `wake_all` every one, as `condvar_wait_wake_protocol` proves of
`core/condvar.cc`.  A woken waiter goes on once it has `_mtx` again (`resume`).  Ghost state:
`holders`, the read locks each thread holds, so that a thread releases only what it holds.

**The lock** (`rwlock_exclusion_and_progress`).  In every reachable state there is no writer
while there are readers, the recursion depth of no owner is zero, and the waiter counters count
the threads in `reader_wait_lockable` and `writer_wait_lockable`.  When every thread is idle
or in one of them, a waiting writer has the lock held against it or a woken writer to go on;
so has a waiting reader, whose wait ends only after the writers before it.  The invariant
behind it is `Inv`: `Exclusion` for the counters of the lock, `Waiters` for the condvars, and
`Served`, which names for every waiter the thread that will wake it.
-/

namespace Osv.Sync

open Transition

variable {τ : Type*}

/-- Where `wunlock` returns to: its caller, the loop `while (_wrecurse)` of `downgrade`, or
the end of that loop. -/
inductive Caller where
  | user
  | loop
  | last
  deriving DecidableEq

/-- Where a thread is in the operations of `rwlock`. -/
inductive RwPc where
  | idle
  /-- Blocked in `reader_wait_lockable`, on `_cond_readers`. -/
  | readWaiting
  /-- Woken from `_cond_readers`, to take `_mtx` and `_read_waiters--`. -/
  | readWoken
  /-- Blocked in `writer_wait_lockable`, on `_cond_writers`. -/
  | writeWaiting
  | writeWoken
  /-- `runlock` after its critical section with `need_wake`, at `_cond_writers.wake_one()`. -/
  | runlockWake
  /-- `wunlock` after its critical section, at `if (_write_waiters)`. -/
  | wunlockWriters (c : Caller)
  /-- At `else if (_read_waiters)`. -/
  | wunlockReaders (c : Caller)
  /-- At `_cond_writers.wake_one()`. -/
  | wakeWriter (c : Caller)
  /-- At `_cond_readers.wake_all()`. -/
  | wakeReaders (c : Caller)
  /-- `downgrade` with `_mtx`, at `while (_wrecurse)`. -/
  | downgrading
  /-- `downgrade` after its last `wunlock`, releasing `_mtx`. -/
  | downgraded
  /-- `downgrade` at its `rlock()`. -/
  | downgradeRlock
  deriving DecidableEq

/-- The place `wunlock` returns to. -/
def Caller.next : Caller → RwPc
  | .user => .idle
  | .loop => .downgrading
  | .last => .downgraded

/-- An `rwlock`, the waiters of its condvars, and where its callers are. -/
structure Rwlock (τ : Type*) where
  readers : ℕ
  readWaiters : ℕ
  writeWaiters : ℕ
  wowner : Option τ
  wrecurse : ℕ
  /-- The threads waiting on `_cond_readers`, oldest first. -/
  condReaders : List τ
  condWriters : List τ
  /-- The thread keeping `_mtx` across steps: only `downgrade` does. -/
  mtx : Option τ
  /-- A thread for each read lock held (ghost). -/
  holders : List τ
  pc : τ → RwPc

/-- What a step shows: the result of a `try_*` call. -/
inductive RwLabel (τ : Type*) where
  | internal
  | tried (t : τ) (ok : Bool)

/-- A call by a thread, the resumption of a woken waiter, or the next step of a thread inside
`runlock`, `wunlock` or `downgrade`. -/
inductive RwAction (τ : Type*) where
  | rlock (t : τ)
  | tryRlock (t : τ)
  | runlock (t : τ)
  | tryUpgrade (t : τ)
  | wlock (t : τ)
  | tryWlock (t : τ)
  | wunlock (t : τ)
  | downgrade (t : τ)
  | resume (t : τ)
  | next (t : τ)

namespace Rwlock

/-- `rwlock::rwlock()`. -/
def init : Rwlock τ := ⟨0, 0, 0, none, 0, [], [], none, [], fun _ => .idle⟩

/-- The lock is held by some thread. -/
def Held (s : Rwlock τ) : Prop := s.wowner ≠ none ∨ 0 < s.readers

/-- `read_lockable()`. -/
def readLockable (s : Rwlock τ) : Bool := s.wowner.isNone && s.writeWaiters == 0

variable [DecidableEq τ]

/-- `write_lockable()` for thread `t`. -/
def writeLockable (s : Rwlock τ) (t : τ) : Bool :=
  s.wowner == some t || (s.readers == 0 && s.wowner.isNone)

/-- Thread `t` moves to `p`. -/
def setPc (s : Rwlock τ) (t : τ) (p : RwPc) : Rwlock τ := { s with pc := Function.update s.pc t p }

/-- `reader_wait_lockable()` and `_readers++` under `_mtx`: the read lock is taken, or `t`
waits on `_cond_readers` (`_read_waiters++`). -/
def rlockSection (s : Rwlock τ) (t : τ) : Rwlock τ :=
  if s.readLockable then
    { s with readers := s.readers + 1, holders := t :: s.holders, pc := Function.update s.pc t .idle }
  else
    { s with readWaiters := s.readWaiters + 1, condReaders := s.condReaders ++ [t],
             pc := Function.update s.pc t .readWaiting }

/-- The write lock taken by `t`, recursively if it is the owner. -/
def takeWrite (s : Rwlock τ) (t : τ) : Rwlock τ :=
  { s with wrecurse := if s.wowner = some t then s.wrecurse + 1 else s.wrecurse, wowner := some t }

/-- `writer_wait_lockable()` and the rest of `wlock` under `_mtx`. -/
def wlockSection (s : Rwlock τ) (t : τ) : Rwlock τ :=
  if s.writeLockable t then (s.takeWrite t).setPc t .idle
  else
    { s with writeWaiters := s.writeWaiters + 1, condWriters := s.condWriters ++ [t],
             pc := Function.update s.pc t .writeWaiting }

/-- The critical section of `wunlock`. -/
def wunlockSection (s : Rwlock τ) : Rwlock τ :=
  if 0 < s.wrecurse then { s with wrecurse := s.wrecurse - 1 } else { s with wowner := none }

/-- `_cond_writers.wake_one()`. -/
def wakeOneWriter (s : Rwlock τ) : Rwlock τ :=
  match s.condWriters with
  | [] => s
  | w :: rest => { s with condWriters := rest, pc := Function.update s.pc w .writeWoken }

/-- `_cond_readers.wake_all()`. -/
def wakeAllReaders (s : Rwlock τ) : Rwlock τ :=
  { s with condReaders := [], pc := fun u => if u ∈ s.condReaders then .readWoken else s.pc u }

/-- The critical section of `runlock`: `--_readers`, and `need_wake` when that was the last
read lock and a writer waits. -/
def runlockSection (s : Rwlock τ) (t : τ) : Rwlock τ :=
  ({ s with readers := s.readers - 1, holders := s.holders.erase t } : Rwlock τ).setPc t
    (if s.readers - 1 = 0 ∧ s.writeWaiters ≠ 0 then .runlockWake else .idle)

/-- One step, or `none` when the thread is not where the step starts or `_mtx` is kept by
another. -/
def exec (s : Rwlock τ) : RwAction τ → Option (RwLabel τ × Rwlock τ)
  | .rlock t =>
      match s.pc t with
      | .idle | .downgradeRlock => if s.mtx = none then some (.internal, s.rlockSection t) else none
      | _ => none
  | .tryRlock t =>
      match s.pc t with
      | .idle =>
          if s.mtx = none then
            if s.readLockable then
              some (.tried t true, { s with readers := s.readers + 1, holders := t :: s.holders })
            else some (.tried t false, s)
          else none
      | _ => none
  | .runlock t =>
      match s.pc t with
      | .idle => if s.mtx = none then some (.internal, s.runlockSection t) else none
      | _ => none
  | .tryUpgrade t =>
      match s.pc t with
      | .idle =>
          if s.mtx = none then
            if s.readers = 1 ∧ s.writeWaiters = 0 then
              some (.tried t true, { s with readers := 0, holders := s.holders.erase t, wowner := some t })
            else some (.tried t false, s)
          else none
      | _ => none
  | .wlock t =>
      match s.pc t with
      | .idle => if s.mtx = none then some (.internal, s.wlockSection t) else none
      | _ => none
  | .tryWlock t =>
      match s.pc t with
      | .idle =>
          if s.mtx = none then
            if s.writeLockable t then some (.tried t true, s.takeWrite t) else some (.tried t false, s)
          else none
      | _ => none
  | .wunlock t =>
      match s.pc t with
      | .idle => if s.mtx = none then some (.internal, s.wunlockSection.setPc t (.wunlockWriters .user))
          else none
      | _ => none
  | .downgrade t =>
      match s.pc t with
      | .idle =>
          if s.mtx = none then some (.internal, ({ s with mtx := some t } : Rwlock τ).setPc t .downgrading)
          else none
      | _ => none
  | .resume t =>
      -- `condvar_wait` returns holding `_mtx`; then `_read_waiters--` (`_write_waiters--`) and
      -- the loop tests again
      match s.pc t with
      | .readWoken =>
          if s.mtx = none then
            some (.internal, ({ s with readWaiters := s.readWaiters - 1 } : Rwlock τ).rlockSection t)
          else none
      | .writeWoken =>
          if s.mtx = none then
            some (.internal, ({ s with writeWaiters := s.writeWaiters - 1 } : Rwlock τ).wlockSection t)
          else none
      | _ => none
  | .next t =>
      match s.pc t with
      | .runlockWake => some (.internal, s.wakeOneWriter.setPc t .idle)
      | .wunlockWriters c =>
          some (.internal, s.setPc t (if s.writeWaiters ≠ 0 then .wakeWriter c else .wunlockReaders c))
      | .wunlockReaders c =>
          some (.internal, s.setPc t (if s.readWaiters ≠ 0 then .wakeReaders c else c.next))
      | .wakeWriter c => some (.internal, s.wakeOneWriter.setPc t c.next)
      | .wakeReaders c => some (.internal, s.wakeAllReaders.setPc t c.next)
      | .downgrading =>
          -- `while (_wrecurse) this->wunlock(); this->wunlock();`, `_mtx` kept throughout
          some (.internal, s.wunlockSection.setPc t (.wunlockWriters (if 0 < s.wrecurse then .loop else .last)))
      | .downgraded => some (.internal, ({ s with mtx := none } : Rwlock τ).setPc t .downgradeRlock)
      | _ => none

/-- A thread releases only what it holds. -/
def Allowed (s : Rwlock τ) : RwAction τ → Prop
  | .runlock t | .tryUpgrade t => t ∈ s.holders
  | .wunlock t | .downgrade t => s.wowner = some t
  | _ => True

/-- Every thread idle, or in `reader_wait_lockable` or `writer_wait_lockable`. -/
def Quiescent (s : Rwlock τ) : Prop :=
  ∀ t, s.pc t = .idle ∨ s.pc t = .readWaiting ∨ s.pc t = .readWoken ∨ s.pc t = .writeWaiting ∨
    s.pc t = .writeWoken

end Rwlock

/-- An `rwlock` and its callers, as a transition system. -/
def rwlock (τ : Type*) [DecidableEq τ] : System (Rwlock τ) (RwLabel τ) where
  init s := s = Rwlock.init
  step s l t := ∃ a, s.Allowed a ∧ s.exec a = some (l, t)

/-- A thread in `reader_wait_lockable`, between `_read_waiters++` and `_read_waiters--`. -/
@[grind] def RwPc.InReaderWait (p : RwPc) : Prop := p = .readWaiting ∨ p = .readWoken

/-- A thread in `writer_wait_lockable`, between `_write_waiters++` and `_write_waiters--`. -/
@[grind] def RwPc.InWriterWait (p : RwPc) : Prop := p = .writeWaiting ∨ p = .writeWoken

instance : DecidablePred RwPc.InReaderWait := fun _ => inferInstanceAs (Decidable (_ ∨ _))

instance : DecidablePred RwPc.InWriterWait := fun _ => inferInstanceAs (Decidable (_ ∨ _))

/-- A place outside both waits. -/
@[grind] def RwPc.Neutral : RwPc → Prop
  | .readWaiting | .readWoken | .writeWaiting | .writeWoken => False
  | _ => True

/-- The places from which a thread is to wake a writer: `runlock` with `need_wake`, and
`wunlock` before its test of `_write_waiters` or at the wake it decided. -/
@[grind] def RwPc.WakesWriters : RwPc → Prop
  | .runlockWake | .wunlockWriters _ | .wakeWriter _ => True
  | _ => False

/-- The places from which a thread of `wunlock` is to wake the readers, unless writers wait. -/
@[grind] def RwPc.WakesReaders : RwPc → Prop
  | .wunlockWriters _ | .wunlockReaders _ | .wakeReaders _ => True
  | _ => False

/-- A place from which a thread serves no waiter: no woken writer, and no wake to come. -/
@[grind] def RwPc.Passive : RwPc → Prop
  | .writeWoken | .runlockWake | .wunlockWriters _ | .wunlockReaders _ | .wakeWriter _
  | .wakeReaders _ => False
  | _ => True

namespace RwPc

variable {p : RwPc}

-- the places' classifiers are `grind` rules: each lemma splits the place and lets `grind` read them
theorem Neutral.not_inReaderWait (h : p.Neutral) : ¬ p.InReaderWait := by
  cases p <;> grind

theorem Neutral.not_inWriterWait (h : p.Neutral) : ¬ p.InWriterWait := by
  cases p <;> grind

theorem Neutral.ne_readWaiting (h : p.Neutral) : p ≠ .readWaiting :=
  fun he => h.not_inReaderWait (.inl he)

theorem Neutral.ne_writeWaiting (h : p.Neutral) : p ≠ .writeWaiting :=
  fun he => h.not_inWriterWait (.inl he)

theorem Neutral.ne_writeWoken (h : p.Neutral) : p ≠ .writeWoken :=
  fun he => h.not_inWriterWait (.inr he)

theorem Passive.ne_writeWoken (h : p.Passive) : p ≠ .writeWoken := by
  rintro rfl
  exact h

theorem Passive.not_wakesWriters (h : p.Passive) : ¬ p.WakesWriters := by
  cases p <;> grind

theorem Passive.not_wakesReaders (h : p.Passive) : ¬ p.WakesReaders := by
  cases p <;> grind

end RwPc

namespace Rwlock

variable [DecidableEq τ] {s s' : Rwlock τ} {t u : τ} {p : RwPc}

/-! ## Fields of the updates -/

section fields

variable (s : Rwlock τ) (t : τ) (p : RwPc)

@[simp] theorem setPc_readers : (s.setPc t p).readers = s.readers := rfl
@[simp] theorem setPc_readWaiters : (s.setPc t p).readWaiters = s.readWaiters := rfl
@[simp] theorem setPc_writeWaiters : (s.setPc t p).writeWaiters = s.writeWaiters := rfl
@[simp] theorem setPc_wowner : (s.setPc t p).wowner = s.wowner := rfl
@[simp] theorem setPc_wrecurse : (s.setPc t p).wrecurse = s.wrecurse := rfl
@[simp] theorem setPc_condReaders : (s.setPc t p).condReaders = s.condReaders := rfl
@[simp] theorem setPc_condWriters : (s.setPc t p).condWriters = s.condWriters := rfl
@[simp] theorem setPc_holders : (s.setPc t p).holders = s.holders := rfl
@[simp] theorem setPc_pc : (s.setPc t p).pc = Function.update s.pc t p := rfl

@[simp] theorem wakeOneWriter_readers : s.wakeOneWriter.readers = s.readers := by
  unfold wakeOneWriter; split <;> rfl
@[simp] theorem wakeOneWriter_readWaiters : s.wakeOneWriter.readWaiters = s.readWaiters := by
  unfold wakeOneWriter; split <;> rfl
@[simp] theorem wakeOneWriter_writeWaiters : s.wakeOneWriter.writeWaiters = s.writeWaiters := by
  unfold wakeOneWriter; split <;> rfl
@[simp] theorem wakeOneWriter_wowner : s.wakeOneWriter.wowner = s.wowner := by
  unfold wakeOneWriter; split <;> rfl
@[simp] theorem wakeOneWriter_wrecurse : s.wakeOneWriter.wrecurse = s.wrecurse := by
  unfold wakeOneWriter; split <;> rfl
@[simp] theorem wakeOneWriter_condReaders : s.wakeOneWriter.condReaders = s.condReaders := by
  unfold wakeOneWriter; split <;> rfl
@[simp] theorem wakeOneWriter_holders : s.wakeOneWriter.holders = s.holders := by
  unfold wakeOneWriter; split <;> rfl

@[simp] theorem wakeAllReaders_readers : s.wakeAllReaders.readers = s.readers := rfl
@[simp] theorem wakeAllReaders_readWaiters : s.wakeAllReaders.readWaiters = s.readWaiters := rfl
@[simp] theorem wakeAllReaders_writeWaiters : s.wakeAllReaders.writeWaiters = s.writeWaiters := rfl
@[simp] theorem wakeAllReaders_wowner : s.wakeAllReaders.wowner = s.wowner := rfl
@[simp] theorem wakeAllReaders_condReaders : s.wakeAllReaders.condReaders = [] := rfl
@[simp] theorem wakeAllReaders_condWriters : s.wakeAllReaders.condWriters = s.condWriters := rfl
@[simp] theorem wakeAllReaders_wrecurse : s.wakeAllReaders.wrecurse = s.wrecurse := rfl
@[simp] theorem wakeAllReaders_holders : s.wakeAllReaders.holders = s.holders := rfl

end fields

section wunlockFields

omit [DecidableEq τ]

variable (s : Rwlock τ)

@[simp] theorem wunlockSection_readers : s.wunlockSection.readers = s.readers := by
  unfold wunlockSection; split <;> rfl
@[simp] theorem wunlockSection_readWaiters : s.wunlockSection.readWaiters = s.readWaiters := by
  unfold wunlockSection; split <;> rfl
@[simp] theorem wunlockSection_writeWaiters : s.wunlockSection.writeWaiters = s.writeWaiters := by
  unfold wunlockSection; split <;> rfl
@[simp] theorem wunlockSection_condReaders : s.wunlockSection.condReaders = s.condReaders := by
  unfold wunlockSection; split <;> rfl
@[simp] theorem wunlockSection_condWriters : s.wunlockSection.condWriters = s.condWriters := by
  unfold wunlockSection; split <;> rfl
@[simp] theorem wunlockSection_holders : s.wunlockSection.holders = s.holders := by
  unfold wunlockSection; split <;> rfl
@[simp] theorem wunlockSection_pc : s.wunlockSection.pc = s.pc := by
  unfold wunlockSection; split <;> rfl

end wunlockFields

/-! ## The invariant

`Exclusion` is about the counters of the lock, `Waiters` about the two condvars and their
counters, `Served` says who is to let each waiter go on: for a writer waiting on
`_cond_writers`, the holders of the lock, a woken writer, or a thread about to wake one; for a
reader, the owner, the waiting writers (readers wait behind them), or a `wunlock` about to
wake the readers.
-/

/-- The lock's own counters: (a) and (b) of the protocol. -/
structure Exclusion (s : Rwlock τ) : Prop where
  owner_readers : s.wowner ≠ none → s.readers = 0
  owner_recurse : s.wowner = none → s.wrecurse = 0
  readers_holders : s.readers = s.holders.length

/-! ### The counters of the lock -/

namespace Exclusion

omit [DecidableEq τ] in
/-- `Exclusion` reads only the counters of the lock and the holders. -/
theorem of_eq (h : Exclusion s) (hr : s'.readers = s.readers) (ho : s'.wowner = s.wowner)
    (hw : s'.wrecurse = s.wrecurse) (hh : s'.holders = s.holders) : Exclusion s' := by
  refine ⟨?_, ?_, ?_⟩
  · rw [hr, ho]
    exact h.owner_readers
  · rw [hw, ho]
    exact h.owner_recurse
  · rw [hr, hh]
    exact h.readers_holders

theorem rlockSection (h : Exclusion s) : Exclusion (s.rlockSection t) := by
  unfold Rwlock.rlockSection
  split
  · next hl =>
      have ho : s.wowner = none := by simpa [readLockable] using (Bool.and_eq_true _ _).mp hl |>.1
      exact ⟨fun hne => absurd ho hne, h.owner_recurse, by simp [h.readers_holders]⟩
  · exact h.of_eq rfl rfl rfl rfl

theorem takeWrite (h : Exclusion s) (hl : s.writeLockable t = true) :
    Exclusion (s.takeWrite t) := by
  have hr : s.readers = 0 := by
    rcases Bool.or_eq_true _ _ |>.mp hl with ho | hr
    · have ho' : s.wowner = some t := by simpa using ho
      exact h.owner_readers (by simp [ho'])
    · simpa using ((Bool.and_eq_true _ _).mp hr).1
  exact ⟨fun _ => hr, fun ho => by simp [Rwlock.takeWrite] at ho, h.readers_holders⟩

theorem wlockSection (h : Exclusion s) : Exclusion (s.wlockSection t) := by
  unfold Rwlock.wlockSection
  split
  · next hl => exact (h.takeWrite hl).of_eq rfl rfl rfl rfl
  · exact h.of_eq rfl rfl rfl rfl

omit [DecidableEq τ] in
theorem wunlockSection (h : Exclusion s) : Exclusion s.wunlockSection := by
  unfold Rwlock.wunlockSection
  split
  · next hpos =>
      refine ⟨h.owner_readers, fun ho => ?_, h.readers_holders⟩
      rw [h.owner_recurse ho] at hpos
      exact absurd hpos (lt_irrefl 0)
  · next hz => exact ⟨fun hne => absurd rfl hne, fun _ => Nat.eq_zero_of_not_pos hz, h.readers_holders⟩

/-- A read lock released by a thread holding one. -/
theorem runlockSection (h : Exclusion s) (ht : t ∈ s.holders) : Exclusion (s.runlockSection t) := by
  have hpos : 0 < s.readers := h.readers_holders ▸ List.length_pos_of_mem ht
  refine ⟨fun ho => absurd (h.owner_readers ho) hpos.ne', h.owner_recurse, ?_⟩
  simp [Rwlock.runlockSection, h.readers_holders, List.length_erase_of_mem ht]

end Exclusion

/-! ### The condvars and their counters -/

variable [Fintype τ]

/-- The number of threads in `reader_wait_lockable`. -/
def readWaitCount (s : Rwlock τ) : ℕ := Count.num RwPc.InReaderWait s.pc

/-- The number of threads in `writer_wait_lockable`. -/
def writeWaitCount (s : Rwlock τ) : ℕ := Count.num RwPc.InWriterWait s.pc

/-- The condvars and the waiter counters. -/
structure Waiters (s : Rwlock τ) : Prop where
  readWaiters_count : s.readWaiters = s.readWaitCount
  writeWaiters_count : s.writeWaiters = s.writeWaitCount
  condReaders_mem : ∀ t, t ∈ s.condReaders ↔ s.pc t = .readWaiting
  condWriters_mem : ∀ t, t ∈ s.condWriters ↔ s.pc t = .writeWaiting
  condWriters_nodup : s.condWriters.Nodup

omit [Fintype τ] in
/-- Someone is to let the writers waiting on `_cond_writers` go on. -/
def WriterServed (s : Rwlock τ) : Prop :=
  s.Held ∨ (∃ u, s.pc u = .writeWoken) ∨ ∃ u, (s.pc u).WakesWriters

omit [Fintype τ] in
/-- Someone is to let the readers waiting on `_cond_readers` go on. -/
def ReaderServed (s : Rwlock τ) : Prop :=
  s.wowner ≠ none ∨ s.writeWaiters ≠ 0 ∨ ∃ u, (s.pc u).WakesReaders

omit [Fintype τ] in
/-- No waiter is forgotten. -/
structure Served (s : Rwlock τ) : Prop where
  writers : s.condWriters ≠ [] → s.WriterServed
  readers : s.condReaders ≠ [] → s.ReaderServed

/-- The invariant of `rwlock`. -/
structure Inv (s : Rwlock τ) : Prop where
  exclusion : Exclusion s
  waiters : Waiters s
  served : Served s

namespace Waiters

omit [DecidableEq τ]

/-- `Waiters` reads only the waiter counters, the condvars and the places. -/
theorem of_eq (h : Waiters s) (hr : s'.readWaiters = s.readWaiters)
    (hw : s'.writeWaiters = s.writeWaiters) (hcr : s'.condReaders = s.condReaders)
    (hcw : s'.condWriters = s.condWriters) (hpc : s'.pc = s.pc) : Waiters s' where
  readWaiters_count := by rw [hr, readWaitCount, hpc]; exact h.readWaiters_count
  writeWaiters_count := by rw [hw, writeWaitCount, hpc]; exact h.writeWaiters_count
  condReaders_mem := by rw [hcr, hpc]; exact h.condReaders_mem
  condWriters_mem := by rw [hcw, hpc]; exact h.condWriters_mem
  condWriters_nodup := by rw [hcw]; exact h.condWriters_nodup

/-- A reader waits on `_cond_readers` only while `_read_waiters` counts it. -/
theorem readWaiters_ne_zero (h : Waiters s) (hc : s.condReaders ≠ []) : s.readWaiters ≠ 0 := by
  obtain ⟨u, hu⟩ := List.exists_mem_of_ne_nil _ hc
  have hpos : 0 < s.readWaitCount := Count.num_pos.mpr ⟨u, .inl ((h.condReaders_mem u).mp hu)⟩
  rw [h.readWaiters_count]
  exact hpos.ne'

theorem writeWaiters_ne_zero (h : Waiters s) (hc : s.condWriters ≠ []) : s.writeWaiters ≠ 0 := by
  obtain ⟨u, hu⟩ := List.exists_mem_of_ne_nil _ hc
  have hpos : 0 < s.writeWaitCount := Count.num_pos.mpr ⟨u, .inl ((h.condWriters_mem u).mp hu)⟩
  rw [h.writeWaiters_count]
  exact hpos.ne'

theorem not_mem_condReaders (h : Waiters s) (ht : s.pc t ≠ .readWaiting) : t ∉ s.condReaders :=
  fun hm => ht ((h.condReaders_mem t).mp hm)

theorem not_mem_condWriters (h : Waiters s) (ht : s.pc t ≠ .writeWaiting) : t ∉ s.condWriters :=
  fun hm => ht ((h.condWriters_mem t).mp hm)

end Waiters

omit [Fintype τ] in
/-- The place of another thread is left as it is when `t` moves. -/
theorem update_pc_iff {P : RwPc → Prop} {f : τ → RwPc} (ht : P (f t) ↔ P p) (u : τ) :
    P (Function.update f t p u) ↔ P (f u) := by
  rcases eq_or_ne u t with rfl | hne
  · rw [Function.update_self, ht]
  · rw [Function.update_of_ne hne]

namespace Waiters

/-- Thread `t` moves from `q` to `p`, both outside the two waits, keeping the condvars. -/
theorem move (h : Waiters s) (ht : (s.pc t).Neutral) (hp : p.Neutral)
    (hr : s'.readWaiters = s.readWaiters) (hw : s'.writeWaiters = s.writeWaiters)
    (hcr : s'.condReaders = s.condReaders) (hcw : s'.condWriters = s.condWriters)
    (hpc : s'.pc = Function.update s.pc t p) : Waiters s' where
  readWaiters_count := by
    rw [hr, h.readWaiters_count, readWaitCount, readWaitCount, hpc]
    exact (Count.num_update_stay (iff_of_false ht.not_inReaderWait hp.not_inReaderWait)).symm
  writeWaiters_count := by
    rw [hw, h.writeWaiters_count, writeWaitCount, writeWaitCount, hpc]
    exact (Count.num_update_stay (iff_of_false ht.not_inWriterWait hp.not_inWriterWait)).symm
  condReaders_mem u := by
    rw [hcr, hpc, h.condReaders_mem u]
    exact (update_pc_iff (P := (· = .readWaiting))
      (iff_of_false (fun he => ht.not_inReaderWait (.inl he)) (fun he => hp.not_inReaderWait (.inl he))) u).symm
  condWriters_mem u := by
    rw [hcw, hpc, h.condWriters_mem u]
    exact (update_pc_iff (P := (· = .writeWaiting))
      (iff_of_false (fun he => ht.not_inWriterWait (.inl he)) (fun he => hp.not_inWriterWait (.inl he))) u).symm
  condWriters_nodup := hcw ▸ h.condWriters_nodup

theorem setPc (h : Waiters s) (ht : (s.pc t).Neutral) (hp : p.Neutral) : Waiters (s.setPc t p) :=
  h.move ht hp rfl rfl rfl rfl rfl

/-- A reader starts to wait: `_read_waiters++` and `_cond_readers.wait`. -/
theorem waitRead (h : Waiters s) (ht : (s.pc t).Neutral) :
    Waiters { s with readWaiters := s.readWaiters + 1, condReaders := s.condReaders ++ [t],
                     pc := Function.update s.pc t .readWaiting } where
  readWaiters_count := by
    rw [h.readWaiters_count, readWaitCount, readWaitCount]
    exact (Count.num_update_enter ht.not_inReaderWait (.inl rfl)).symm
  writeWaiters_count := by
    rw [h.writeWaiters_count, writeWaitCount, writeWaitCount]
    exact (Count.num_update_stay (iff_of_false ht.not_inWriterWait (by decide))).symm
  condReaders_mem u := by
    rcases eq_or_ne u t with rfl | hne
    · simp
    · simp [hne, h.condReaders_mem u]
  condWriters_mem u := by
    rcases eq_or_ne u t with rfl | hne
    · simpa using h.not_mem_condWriters fun he => ht.not_inWriterWait (.inl he)
    · simp [Function.update_of_ne hne, h.condWriters_mem u]
  condWriters_nodup := h.condWriters_nodup

/-- A writer starts to wait: `_write_waiters++` and `_cond_writers.wait`. -/
theorem waitWrite (h : Waiters s) (ht : (s.pc t).Neutral) :
    Waiters { s with writeWaiters := s.writeWaiters + 1, condWriters := s.condWriters ++ [t],
                     pc := Function.update s.pc t .writeWaiting } where
  readWaiters_count := by
    rw [h.readWaiters_count, readWaitCount, readWaitCount]
    exact (Count.num_update_stay (iff_of_false ht.not_inReaderWait (by decide))).symm
  writeWaiters_count := by
    rw [h.writeWaiters_count, writeWaitCount, writeWaitCount]
    exact (Count.num_update_enter ht.not_inWriterWait (.inl rfl)).symm
  condReaders_mem u := by
    rcases eq_or_ne u t with rfl | hne
    · simpa using h.not_mem_condReaders fun he => ht.not_inReaderWait (.inl he)
    · simp [Function.update_of_ne hne, h.condReaders_mem u]
  condWriters_mem u := by
    rcases eq_or_ne u t with rfl | hne
    · simp
    · simp [hne, h.condWriters_mem u]
  condWriters_nodup :=
    List.nodup_append.mpr ⟨h.condWriters_nodup, List.nodup_singleton t,
      fun _ hu _ hv => by
        rw [List.mem_singleton.mp hv]
        rintro rfl
        exact h.not_mem_condWriters (fun he => ht.not_inWriterWait (.inl he)) hu⟩

/-- A woken reader leaves the wait: `_read_waiters--`. -/
theorem leaveRead (h : Waiters s) (ht : s.pc t = .readWoken) :
    Waiters (({ s with readWaiters := s.readWaiters - 1 } : Rwlock τ).setPc t .idle) where
  readWaiters_count := by
    have hl := Count.num_update_leave (P := RwPc.InReaderWait) (f := s.pc) (a := .idle)
      (by rw [ht]; decide) (by decide)
    simp only [setPc_readWaiters, h.readWaiters_count, readWaitCount, setPc_pc]
    omega
  writeWaiters_count := by
    rw [setPc_writeWaiters, h.writeWaiters_count, writeWaitCount, writeWaitCount, setPc_pc]
    exact (Count.num_update_stay (iff_of_false (by rw [ht]; decide) (by decide))).symm
  condReaders_mem u := by
    rw [setPc_condReaders, setPc_pc, h.condReaders_mem u]
    exact (update_pc_iff (P := (· = .readWaiting)) (by rw [ht]; decide) u).symm
  condWriters_mem u := by
    rw [setPc_condWriters, setPc_pc, h.condWriters_mem u]
    exact (update_pc_iff (P := (· = .writeWaiting)) (by rw [ht]; decide) u).symm
  condWriters_nodup := h.condWriters_nodup

/-- A woken writer leaves the wait: `_write_waiters--`. -/
theorem leaveWrite (h : Waiters s) (ht : s.pc t = .writeWoken) :
    Waiters (({ s with writeWaiters := s.writeWaiters - 1 } : Rwlock τ).setPc t .idle) where
  readWaiters_count := by
    rw [setPc_readWaiters, h.readWaiters_count, readWaitCount, readWaitCount, setPc_pc]
    exact (Count.num_update_stay (iff_of_false (by rw [ht]; decide) (by decide))).symm
  writeWaiters_count := by
    have hl := Count.num_update_leave (P := RwPc.InWriterWait) (f := s.pc) (a := .idle)
      (by rw [ht]; decide) (by decide)
    simp only [setPc_writeWaiters, h.writeWaiters_count, writeWaitCount, setPc_pc]
    omega
  condReaders_mem u := by
    rw [setPc_condReaders, setPc_pc, h.condReaders_mem u]
    exact (update_pc_iff (P := (· = .readWaiting)) (by rw [ht]; decide) u).symm
  condWriters_mem u := by
    rw [setPc_condWriters, setPc_pc, h.condWriters_mem u]
    exact (update_pc_iff (P := (· = .writeWaiting)) (by rw [ht]; decide) u).symm
  condWriters_nodup := h.condWriters_nodup

theorem rlockSection (h : Waiters s) (ht : (s.pc t).Neutral) : Waiters (s.rlockSection t) := by
  unfold Rwlock.rlockSection
  split
  · exact h.move (p := .idle) ht trivial rfl rfl rfl rfl rfl
  · exact h.waitRead ht

theorem wlockSection (h : Waiters s) (ht : (s.pc t).Neutral) : Waiters (s.wlockSection t) := by
  unfold Rwlock.wlockSection
  split
  · exact h.move (p := .idle) ht trivial rfl rfl rfl rfl rfl
  · exact h.waitWrite ht

/-- `wake_one` on `_cond_writers` moves its oldest waiter from waiting to woken. -/
theorem wakeOneWriter (h : Waiters s) : Waiters s.wakeOneWriter := by
  unfold Rwlock.wakeOneWriter
  split
  · exact h
  · next w rest hcw =>
    have hw : s.pc w = .writeWaiting := (h.condWriters_mem w).mp (by simp [hcw])
    have hnd := h.condWriters_nodup
    rw [hcw, List.nodup_cons] at hnd
    refine ⟨?_, ?_, fun u => ?_, fun u => ?_, hnd.2⟩
    · rw [h.readWaiters_count, readWaitCount, readWaitCount]
      exact (Count.num_update_stay (iff_of_false (by rw [hw]; decide) (by decide))).symm
    · rw [h.writeWaiters_count, writeWaitCount, writeWaitCount]
      exact (Count.num_update_stay (iff_of_true (by rw [hw]; decide) (by decide))).symm
    · show u ∈ s.condReaders ↔ Function.update s.pc w .writeWoken u = .readWaiting
      rw [h.condReaders_mem u]
      exact (update_pc_iff (P := (· = .readWaiting)) (by rw [hw]; decide) u).symm
    · show u ∈ rest ↔ Function.update s.pc w .writeWoken u = .writeWaiting
      rcases eq_or_ne u w with rfl | hne
      · simpa using hnd.1
      · rw [Function.update_of_ne hne, ← h.condWriters_mem u, hcw, List.mem_cons, or_iff_right hne]

/-- `wake_all` on `_cond_readers` moves all its waiters from waiting to woken. -/
theorem wakeAllReaders (h : Waiters s) : Waiters s.wakeAllReaders := by
  have hpc : ∀ u, s.wakeAllReaders.pc u = if u ∈ s.condReaders then .readWoken else s.pc u :=
    fun _ => rfl
  -- a member of `_cond_readers` was waiting to read, so it stays in `reader_wait_lockable`
  have hmem : ∀ u ∈ s.condReaders, s.pc u = .readWaiting := fun u => (h.condReaders_mem u).mp
  refine ⟨?_, ?_, fun u => ?_, fun u => ?_, h.condWriters_nodup⟩
  · rw [wakeAllReaders_readWaiters, h.readWaiters_count, readWaitCount, readWaitCount]
    refine Count.num_congr fun u => ?_
    rw [hpc]
    split
    · next hu => exact iff_of_true (.inl (hmem u hu)) (.inr rfl)
    · exact Iff.rfl
  · rw [wakeAllReaders_writeWaiters, h.writeWaiters_count, writeWaitCount, writeWaitCount]
    refine Count.num_congr fun u => ?_
    rw [hpc]
    split
    · next hu => exact iff_of_false (by rw [hmem u hu]; decide) (by decide)
    · exact Iff.rfl
  · rw [hpc]
    split
    · next hu => exact iff_of_false List.not_mem_nil (by decide)
    · next hu => exact iff_of_false List.not_mem_nil fun he => hu ((h.condReaders_mem u).mpr he)
  · rw [hpc]
    split
    · next hu =>
      rw [wakeAllReaders_condWriters]
      exact iff_of_false (h.not_mem_condWriters (by rw [hmem u hu]; decide)) (by decide)
    · exact h.condWriters_mem u

end Waiters

/-! ### Who serves the waiters -/

section served

omit [Fintype τ]

/-- A class of places that `t` is not in keeps its members when `t` moves. -/
theorem update_keep {Q : RwPc → Prop} {f : τ → RwPc} (ht : ¬ Q (f t)) (p : RwPc) {u : τ}
    (hu : Q (f u)) : Q (Function.update f t p u) := by
  have hne : u ≠ t := by
    rintro rfl
    exact ht hu
  rw [Function.update_of_ne hne]
  exact hu

omit [DecidableEq τ] in
theorem WriterServed.mono (h : s.WriterServed) (hh : s.Held → s'.Held)
    (hw : ∀ u, s.pc u = .writeWoken → s'.pc u = .writeWoken)
    (hk : ∀ u, (s.pc u).WakesWriters → (s'.pc u).WakesWriters) : s'.WriterServed := by
  rcases h with h | ⟨u, hu⟩ | ⟨u, hu⟩
  · exact .inl (hh h)
  · exact .inr (.inl ⟨u, hw u hu⟩)
  · exact .inr (.inr ⟨u, hk u hu⟩)

omit [DecidableEq τ] in
theorem ReaderServed.mono (h : s.ReaderServed) (ho : s.wowner = s'.wowner)
    (hw : s.writeWaiters ≠ 0 → s'.writeWaiters ≠ 0)
    (hk : ∀ u, (s.pc u).WakesReaders → (s'.pc u).WakesReaders) : s'.ReaderServed := by
  rcases h with h | h | ⟨u, hu⟩
  · exact .inl (ho ▸ h)
  · exact .inr (.inl (hw h))
  · exact .inr (.inr ⟨u, hk u hu⟩)

/-- The writers are served while `t`, which serves none of them, moves. -/
theorem WriterServed.update (h : s.WriterServed) (hh : s.Held → s'.Held)
    (hpc : s'.pc = Function.update s.pc t p) (hw : s.pc t ≠ .writeWoken)
    (hk : ¬ (s.pc t).WakesWriters) : s'.WriterServed :=
  h.mono hh (fun _ hu => hpc ▸ update_keep (Q := (· = .writeWoken)) hw p hu)
    (fun _ hu => hpc ▸ update_keep hk p hu)

theorem ReaderServed.update (h : s.ReaderServed) (ho : s.wowner = s'.wowner)
    (hww : s.writeWaiters = s'.writeWaiters) (hpc : s'.pc = Function.update s.pc t p)
    (hk : ¬ (s.pc t).WakesReaders) : s'.ReaderServed :=
  h.mono ho (fun hne => hww ▸ hne) (fun _ hu => hpc ▸ update_keep hk p hu)

namespace Served

omit [DecidableEq τ] in
/-- `Served` reads neither `_read_waiters` nor `_wrecurse`. -/
theorem of_eq (h : Served s) (hr : s'.readers = s.readers) (ho : s'.wowner = s.wowner)
    (hww : s'.writeWaiters = s.writeWaiters) (hcr : s'.condReaders = s.condReaders)
    (hcw : s'.condWriters = s.condWriters) (hpc : s'.pc = s.pc) : Served s' := by
  have hheld : s'.Held ↔ s.Held := by rw [Held, Held, hr, ho]
  refine ⟨fun hc => ?_, fun hc => ?_⟩
  · rw [hcw] at hc
    exact (h.writers hc).mono hheld.mpr (fun _ hu => hpc ▸ hu) (fun _ hu => hpc ▸ hu)
  · rw [hcr] at hc
    exact (h.readers hc).mono ho.symm (fun hne => hww ▸ hne) (fun _ hu => hpc ▸ hu)

omit [DecidableEq τ] in
/-- An owner serves every waiter: it will `wunlock`. -/
theorem of_owner (ho : s.wowner ≠ none) : Served s :=
  ⟨fun _ => .inl (.inl ho), fun _ => .inl ho⟩

omit [DecidableEq τ] in
/-- A thread at the start of the wakes of `wunlock` serves every waiter. -/
theorem of_wunlock {c : Caller} (ht : s.pc t = .wunlockWriters c) : Served s :=
  ⟨fun _ => .inr (.inr ⟨t, by rw [ht]; trivial⟩), fun _ => .inr (.inr ⟨t, by rw [ht]; trivial⟩)⟩

/-- **`reader_wait_lockable` and `_readers++`.**  The reader takes the lock, so the writers are
served by it; or it waits because of an owner or a waiting writer, which serve it. -/
theorem rlockSection (h : Served s) (ht : (s.pc t).Passive) : Served (s.rlockSection t) := by
  unfold Rwlock.rlockSection
  split
  · refine ⟨fun _ => .inl (.inr (Nat.succ_pos _)), fun hc => ?_⟩
    exact (h.readers hc).update rfl rfl rfl ht.not_wakesReaders
  · next hl =>
    refine ⟨fun hc => (h.writers hc).update id rfl ht.ne_writeWoken ht.not_wakesWriters, fun _ => ?_⟩
    have : ¬ (s.wowner = none ∧ s.writeWaiters = 0) := by simpa [readLockable] using hl
    rcases not_and_or.mp this with ho | hz
    · exact .inl ho
    · exact .inr (.inl (by simpa using hz))

/-- **`writer_wait_lockable` and the rest of `wlock`.**  The writer takes the lock, or it waits
while the lock is held, and its own `_write_waiters++` serves the readers: `wlock` leaves
every waiter served, whatever the state before. -/
theorem wlockSection : Served (s.wlockSection t) := by
  unfold Rwlock.wlockSection
  split
  · exact of_owner (by simp [Rwlock.takeWrite])
  · next hl =>
    have hheld : s.Held := by
      simp only [writeLockable, Bool.or_eq_true, beq_iff_eq, Bool.and_eq_true, Option.isNone_iff_eq_none,
        not_or, not_and] at hl
      by_cases ho : s.wowner = none
      · exact .inr (Nat.pos_of_ne_zero fun hz => hl.2 (by simpa using hz) ho)
      · exact .inl ho
    exact ⟨fun _ => .inl hheld, fun _ => .inr (.inl (Nat.succ_ne_zero _))⟩

/-- **The end of `runlock`.**  The last reader is at `_cond_writers.wake_one()` when writers
wait: `need_wake`. -/
theorem runlockSection [Fintype τ] (h : Served s) (hws : Waiters s) (ht : s.pc t = .idle) :
    Served (s.runlockSection t) := by
  refine ⟨fun hc => ?_, fun hc => (h.readers hc).update rfl rfl rfl (by rw [ht]; exact id)⟩
  have hne := hws.writeWaiters_ne_zero hc
  by_cases hlast : s.readers - 1 = 0
  · exact .inr (.inr ⟨t, by simp [Rwlock.runlockSection, hlast, hne, RwPc.WakesWriters]⟩)
  · exact .inl (.inr (by simp [Rwlock.runlockSection]; omega))

/-- **`_cond_writers.wake_one()`.**  The writer woken serves the writers left on the condvar;
`t`, at the wake, serves no reader. -/
theorem wakeOneWriter [Fintype τ] (h : Served s) (hws : Waiters s) (ht : ¬ (s.pc t).WakesReaders)
    (htw : s.pc t ≠ .writeWaiting) : Served (s.wakeOneWriter.setPc t p) := by
  unfold Rwlock.wakeOneWriter
  split
  · next hcw =>
    exact ⟨fun hc => absurd hcw hc, fun hc => (h.readers hc).update rfl rfl rfl ht⟩
  · next w rest hcw =>
    have hw : s.pc w = .writeWaiting := (hws.condWriters_mem w).mp (by simp [hcw])
    have hne : w ≠ t := fun he => htw (he ▸ hw)
    refine ⟨fun _ => .inr (.inl ⟨w, by simp [hne]⟩), fun hc => ?_⟩
    refine (h.readers hc).mono rfl id fun u hu => ?_
    show (Function.update (Function.update s.pc w .writeWoken) t p u).WakesReaders
    exact update_keep (by rwa [Function.update_of_ne hne.symm]) p
      (update_keep (Q := RwPc.WakesReaders) (by rw [hw]; exact id) _ hu)

/-- **`_cond_readers.wake_all()`.**  No reader is left on the condvar; the writers keep who
serves them, since the readers woken serve no writer. -/
theorem wakeAllReaders [Fintype τ] (h : Served s) (hws : Waiters s) (hw : s.pc t ≠ .writeWoken)
    (hww : ¬ (s.pc t).WakesWriters) : Served (s.wakeAllReaders.setPc t p) := by
  -- the readers woken go from `readWaiting` to `readWoken`, outside both classes
  have hpc : ∀ (Q : RwPc → Prop), ¬ Q .readWaiting → ¬ Q .readWoken → ∀ u,
      Q (s.wakeAllReaders.pc u) ↔ Q (s.pc u) := by
    intro Q hQ hQ' u
    show Q (if u ∈ s.condReaders then .readWoken else s.pc u) ↔ Q (s.pc u)
    split
    · next hm => exact iff_of_false hQ' (by rw [(hws.condReaders_mem u).mp hm]; exact hQ)
    · exact Iff.rfl
  have hwoken := hpc (· = .writeWoken) (by decide) (by decide)
  have hwakes := hpc RwPc.WakesWriters id id
  refine ⟨fun hc => ?_, fun hc => absurd rfl hc⟩
  refine (h.writers hc).mono id (fun u hu => ?_) fun u hu => ?_
  · exact update_keep (Q := (· = .writeWoken)) (fun he => hw ((hwoken t).mp he)) p ((hwoken u).mpr hu)
  · exact update_keep (fun he => hww ((hwakes t).mp he)) p ((hwakes u).mpr hu)

/-- A thread that serves no waiter moves. -/
theorem setPc (h : Served s) (ht : (s.pc t).Passive) : Served (s.setPc t p) :=
  ⟨fun hc => (h.writers hc).update id rfl ht.ne_writeWoken ht.not_wakesWriters,
    fun hc => (h.readers hc).update rfl rfl rfl ht.not_wakesReaders⟩

/-- **`if (_write_waiters)` in `wunlock`.**  Writers waiting are counted, so the test finds
them and `t` goes on to wake one; otherwise `t` goes on to the readers. -/
theorem wunlockWriters [Fintype τ] {c : Caller} (hws : Waiters s) :
    Served (s.setPc t (if s.writeWaiters ≠ 0 then .wakeWriter c else .wunlockReaders c)) := by
  by_cases hw : s.writeWaiters ≠ 0
  · refine ⟨fun _ => .inr (.inr ⟨t, by simp [hw, RwPc.WakesWriters]⟩), fun _ => .inr (.inl hw)⟩
  · refine ⟨fun hc => absurd (hws.writeWaiters_ne_zero hc) hw, fun _ => ?_⟩
    exact .inr (.inr ⟨t, by simp [hw, RwPc.WakesReaders]⟩)

/-- **`else if (_read_waiters)` in `wunlock`.**  Readers waiting are counted, so the test finds
them and `t` goes on to wake them all. -/
theorem wunlockReaders [Fintype τ] {c : Caller} (h : Served s) (hws : Waiters s)
    (ht : s.pc t = .wunlockReaders c) :
    Served (s.setPc t (if s.readWaiters ≠ 0 then .wakeReaders c else c.next)) := by
  refine ⟨fun hc => (h.writers hc).update id rfl (by rw [ht]; simp) (by rw [ht]; exact id), fun hc => ?_⟩
  by_cases hr : s.readWaiters ≠ 0
  · exact .inr (.inr ⟨t, by simp [hr, RwPc.WakesReaders]⟩)
  · exact absurd (hws.readWaiters_ne_zero hc) hr

end Served

end served

/-! ### The invariant is inductive -/

omit [DecidableEq τ] in
/-- `wunlock` returns to a place where its thread waits for nothing and serves no waiter. -/
theorem Caller.next_passive (c : Caller) : c.next.Neutral ∧ c.next.Passive := by
  cases c <;> exact ⟨trivial, trivial⟩

omit [Fintype τ] in
/-- `rlockSection` sets the place of `t` itself. -/
theorem rlockSection_setPc : (s.setPc t p).rlockSection t = s.rlockSection t := by
  have hl : (s.setPc t p).readLockable = s.readLockable := rfl
  unfold Rwlock.rlockSection
  rw [hl]
  split <;> simp [Rwlock.setPc]

omit [Fintype τ] in
/-- `wlockSection` sets the place of `t` itself. -/
theorem wlockSection_setPc : (s.setPc t p).wlockSection t = s.wlockSection t := by
  have hl : (s.setPc t p).writeLockable t = s.writeLockable t := rfl
  unfold Rwlock.wlockSection
  rw [hl]
  split
  · simp only [Rwlock.setPc, Rwlock.takeWrite, Function.update_idem]
    rfl
  · simp [Rwlock.setPc]

theorem Waiters.wakeOneWriter_pc (h : Waiters s) (ht : s.pc t ≠ .writeWaiting) :
    s.wakeOneWriter.pc t = s.pc t := by
  unfold Rwlock.wakeOneWriter
  split
  · rfl
  · next w rest hcw =>
    have hw : s.pc w = .writeWaiting := (h.condWriters_mem w).mp (by simp [hcw])
    have hne : t ≠ w := by
      rintro rfl
      exact ht hw
    exact Function.update_of_ne hne _ _

theorem Waiters.wakeAllReaders_pc (h : Waiters s) (ht : s.pc t ≠ .readWaiting) :
    s.wakeAllReaders.pc t = s.pc t :=
  if_neg (h.not_mem_condReaders ht)

omit [DecidableEq τ] [Fintype τ] in
/-- In a quiescent state nobody is about to wake a waiter. -/
theorem Quiescent.no_wakes (hq : s.Quiescent) (u : τ) :
    ¬ (s.pc u).WakesWriters ∧ ¬ (s.pc u).WakesReaders := by
  rcases hq u with h | h | h | h | h <;> rw [h] <;> exact ⟨id, id⟩

namespace Inv

omit [DecidableEq τ] in
theorem init : Inv (Rwlock.init : Rwlock τ) where
  exclusion := ⟨fun h => absurd rfl h, fun _ => rfl, rfl⟩
  waiters :=
    { readWaiters_count := (Count.num_eq_zero.mpr fun _ => (by decide : ¬ RwPc.idle.InReaderWait)).symm
      writeWaiters_count := (Count.num_eq_zero.mpr fun _ => (by decide : ¬ RwPc.idle.InWriterWait)).symm
      condReaders_mem := fun _ => iff_of_false List.not_mem_nil (by decide : RwPc.idle ≠ .readWaiting)
      condWriters_mem := fun _ => iff_of_false List.not_mem_nil (by decide : RwPc.idle ≠ .writeWaiting)
      condWriters_nodup := List.nodup_nil }
  served := ⟨fun h => absurd rfl h, fun h => absurd rfl h⟩

/-- `rlock`, called by `t` or at the end of `downgrade`. -/
theorem rlockSection (h : Inv s) (ht : s.pc t = .idle ∨ s.pc t = .downgradeRlock) :
    Inv (s.rlockSection t) := by
  have hq : (s.pc t).Neutral ∧ (s.pc t).Passive := by
    rcases ht with ht | ht <;> rw [ht] <;> exact ⟨trivial, trivial⟩
  exact ⟨h.exclusion.rlockSection, h.waiters.rlockSection hq.1, h.served.rlockSection hq.2⟩

/-- `wlock`: the state before need not serve its waiters, `wlockSection` does. -/
theorem wlockSection (hx : Exclusion s) (hw : Waiters s) (ht : s.pc t = .idle) :
    Inv (s.wlockSection t) :=
  ⟨hx.wlockSection, hw.wlockSection (by rw [ht]; trivial), Served.wlockSection⟩

/-- A reader woken from `_cond_readers` has `_mtx` again: `_read_waiters--`, and the loop of
`reader_wait_lockable` tests again. -/
theorem resumeRead (h : Inv s) (ht : s.pc t = .readWoken) :
    Inv (({ s with readWaiters := s.readWaiters - 1 } : Rwlock τ).rlockSection t) := by
  rw [← rlockSection_setPc (p := .idle)]
  have hs : Served (({ s with readWaiters := s.readWaiters - 1 } : Rwlock τ).setPc t .idle) :=
    Served.setPc (h.served.of_eq rfl rfl rfl rfl rfl rfl) (by simp [ht, RwPc.Passive])
  exact rlockSection ⟨h.exclusion.of_eq rfl rfl rfl rfl, h.waiters.leaveRead ht, hs⟩ (.inl (by simp))

/-- A writer woken from `_cond_writers` has `_mtx` again: `_write_waiters--`, and the loop of
`writer_wait_lockable` tests again. -/
theorem resumeWrite (h : Inv s) (ht : s.pc t = .writeWoken) :
    Inv (({ s with writeWaiters := s.writeWaiters - 1 } : Rwlock τ).wlockSection t) := by
  rw [← wlockSection_setPc (p := .idle)]
  exact wlockSection (h.exclusion.of_eq rfl rfl rfl rfl) (h.waiters.leaveWrite ht) (by simp)

omit [DecidableEq τ] in
theorem tryRlock (h : Inv s) (hl : s.readLockable = true) :
    Inv { s with readers := s.readers + 1, holders := t :: s.holders } where
  exclusion := by
    have ho : s.wowner = none := by simpa [readLockable] using ((Bool.and_eq_true _ _).mp hl).1
    exact ⟨fun hne => absurd ho hne, h.exclusion.owner_recurse, by simp [h.exclusion.readers_holders]⟩
  waiters := h.waiters.of_eq rfl rfl rfl rfl rfl
  served := ⟨fun _ => .inl (.inr (Nat.succ_pos _)), fun hc => (h.served.readers hc).mono rfl id fun _ hu => hu⟩

theorem tryUpgrade (h : Inv s) (ht : t ∈ s.holders) (hr : s.readers = 1) :
    Inv { s with readers := 0, holders := s.holders.erase t, wowner := some t } where
  exclusion := by
    refine ⟨fun _ => rfl, fun hne => absurd hne (Option.some_ne_none t), ?_⟩
    have hlen := h.exclusion.readers_holders
    simp only [List.length_erase_of_mem ht]
    omega
  waiters := h.waiters.of_eq rfl rfl rfl rfl rfl
  served := Served.of_owner (Option.some_ne_none t)

theorem takeWrite (h : Inv s) (hl : s.writeLockable t = true) : Inv (s.takeWrite t) :=
  ⟨h.exclusion.takeWrite hl, h.waiters.of_eq rfl rfl rfl rfl rfl, Served.of_owner (by simp [Rwlock.takeWrite])⟩

theorem runlockSection (h : Inv s) (ht : s.pc t = .idle) (hh : t ∈ s.holders) :
    Inv (s.runlockSection t) :=
  ⟨h.exclusion.runlockSection hh, h.waiters.move (by rw [ht]; trivial) (by split <;> trivial) rfl rfl rfl rfl rfl,
    h.served.runlockSection h.waiters ht⟩

/-- The critical section of `wunlock`, called by `t` or by `downgrade`. -/
theorem wunlockSection (h : Inv s) (ht : (s.pc t).Neutral) (c : Caller) :
    Inv (s.wunlockSection.setPc t (.wunlockWriters c)) :=
  ⟨h.exclusion.wunlockSection.of_eq rfl rfl rfl rfl,
    h.waiters.move (p := .wunlockWriters c) ht trivial (by simp) (by simp) (by simp) (by simp) (by simp),
    Served.of_wunlock (t := t) (c := c) (by simp)⟩

theorem downgrade (h : Inv s) (ho : s.wowner = some t) (ht : s.pc t = .idle) :
    Inv (({ s with mtx := some t } : Rwlock τ).setPc t .downgrading) :=
  ⟨h.exclusion.of_eq rfl rfl rfl rfl, h.waiters.move (p := .downgrading) (by rw [ht]; trivial) trivial rfl rfl rfl rfl rfl,
    Served.of_owner (by simp [ho])⟩

theorem downgraded (h : Inv s) (ht : s.pc t = .downgraded) :
    Inv (({ s with mtx := none } : Rwlock τ).setPc t .downgradeRlock) :=
  ⟨h.exclusion.of_eq rfl rfl rfl rfl,
    h.waiters.move (p := .downgradeRlock) (by rw [ht]; trivial) trivial rfl rfl rfl rfl rfl,
    Served.setPc (h.served.of_eq rfl rfl rfl rfl rfl rfl) (by simp [ht, RwPc.Passive])⟩

/-- `_cond_writers.wake_one()`, at the end of `runlock` or of `wunlock`. -/
theorem wakeOneWriter (h : Inv s) (ht : (s.pc t).Neutral) (htr : ¬ (s.pc t).WakesReaders)
    (hp : p.Neutral) : Inv (s.wakeOneWriter.setPc t p) :=
  ⟨h.exclusion.of_eq (by simp) (by simp) (by simp) (by simp),
    h.waiters.wakeOneWriter.setPc (by rw [h.waiters.wakeOneWriter_pc ht.ne_writeWaiting]; exact ht) hp,
    h.served.wakeOneWriter h.waiters htr ht.ne_writeWaiting⟩

/-- `_cond_readers.wake_all()`, at the end of `wunlock`. -/
theorem wakeAllReaders (h : Inv s) (ht : (s.pc t).Neutral) (htw : ¬ (s.pc t).WakesWriters)
    (hp : p.Neutral) : Inv (s.wakeAllReaders.setPc t p) :=
  ⟨h.exclusion.of_eq (by simp) (by simp) (by simp) (by simp),
    h.waiters.wakeAllReaders.setPc (by rw [h.waiters.wakeAllReaders_pc ht.ne_readWaiting]; exact ht) hp,
    h.served.wakeAllReaders h.waiters ht.ne_writeWoken htw⟩

theorem wunlockWriters {c : Caller} (h : Inv s) (ht : s.pc t = .wunlockWriters c) :
    Inv (s.setPc t (if s.writeWaiters ≠ 0 then .wakeWriter c else .wunlockReaders c)) :=
  ⟨h.exclusion.of_eq rfl rfl rfl rfl, h.waiters.setPc (by rw [ht]; trivial) (by split <;> trivial),
    Served.wunlockWriters h.waiters⟩

theorem wunlockReaders {c : Caller} (h : Inv s) (ht : s.pc t = .wunlockReaders c) :
    Inv (s.setPc t (if s.readWaiters ≠ 0 then .wakeReaders c else c.next)) :=
  ⟨h.exclusion.of_eq rfl rfl rfl rfl,
    h.waiters.setPc (by rw [ht]; trivial) (by split; exacts [trivial, (Caller.next_passive c).1]),
    h.served.wunlockReaders h.waiters ht⟩

/-! ### One step -/

section steps

variable {l : RwLabel τ}

theorem step_rlock (h : Inv s) (he : s.exec (.rlock t) = some (l, s')) : Inv s' := by
  simp only [exec.eq_def] at he
  split at he
  · next hpc =>
    obtain ⟨-, he⟩ := Option.ite_none_right_eq_some.mp he
    cases he
    exact h.rlockSection (.inl hpc)
  · next hpc =>
    obtain ⟨-, he⟩ := Option.ite_none_right_eq_some.mp he
    cases he
    exact h.rlockSection (.inr hpc)
  · cases he

theorem step_tryRlock (h : Inv s) (he : s.exec (.tryRlock t) = some (l, s')) : Inv s' := by
  simp only [exec.eq_def] at he
  split at he
  · obtain ⟨-, he⟩ := Option.ite_none_right_eq_some.mp he
    split at he
    · next hl =>
      cases he
      exact h.tryRlock hl
    · cases he
      exact h
  · cases he

theorem step_runlock (h : Inv s) (hh : t ∈ s.holders) (he : s.exec (.runlock t) = some (l, s')) :
    Inv s' := by
  simp only [exec.eq_def] at he
  split at he
  · next hpc =>
    obtain ⟨-, he⟩ := Option.ite_none_right_eq_some.mp he
    cases he
    exact h.runlockSection hpc hh
  · cases he

theorem step_tryUpgrade (h : Inv s) (hh : t ∈ s.holders)
    (he : s.exec (.tryUpgrade t) = some (l, s')) : Inv s' := by
  simp only [exec.eq_def] at he
  split at he
  · obtain ⟨-, he⟩ := Option.ite_none_right_eq_some.mp he
    split at he
    · next hr =>
      cases he
      exact h.tryUpgrade hh hr.1
    · cases he
      exact h
  · cases he

theorem step_wlock (h : Inv s) (he : s.exec (.wlock t) = some (l, s')) : Inv s' := by
  simp only [exec.eq_def] at he
  split at he
  · next hpc =>
    obtain ⟨-, he⟩ := Option.ite_none_right_eq_some.mp he
    cases he
    exact wlockSection h.exclusion h.waiters hpc
  · cases he

theorem step_tryWlock (h : Inv s) (he : s.exec (.tryWlock t) = some (l, s')) : Inv s' := by
  simp only [exec.eq_def] at he
  split at he
  · obtain ⟨-, he⟩ := Option.ite_none_right_eq_some.mp he
    split at he
    · next hl =>
      cases he
      exact h.takeWrite hl
    · cases he
      exact h
  · cases he

theorem step_wunlock (h : Inv s) (he : s.exec (.wunlock t) = some (l, s')) : Inv s' := by
  simp only [exec.eq_def] at he
  split at he
  · next hpc =>
    obtain ⟨-, he⟩ := Option.ite_none_right_eq_some.mp he
    cases he
    exact h.wunlockSection (by rw [hpc]; trivial) .user
  · cases he

theorem step_downgrade (h : Inv s) (ho : s.wowner = some t)
    (he : s.exec (.downgrade t) = some (l, s')) : Inv s' := by
  simp only [exec.eq_def] at he
  split at he
  · next hpc =>
    obtain ⟨-, he⟩ := Option.ite_none_right_eq_some.mp he
    cases he
    exact h.downgrade ho hpc
  · cases he

theorem step_resume (h : Inv s) (he : s.exec (.resume t) = some (l, s')) : Inv s' := by
  simp only [exec.eq_def] at he
  split at he
  · next hpc =>
    obtain ⟨-, he⟩ := Option.ite_none_right_eq_some.mp he
    cases he
    exact h.resumeRead hpc
  · next hpc =>
    obtain ⟨-, he⟩ := Option.ite_none_right_eq_some.mp he
    cases he
    exact h.resumeWrite hpc
  · cases he

/-- The steps of `runlock`, `wunlock` and `downgrade` after their critical sections. -/
theorem step_next (h : Inv s) (he : s.exec (.next t) = some (l, s')) : Inv s' := by
  simp only [exec.eq_def] at he
  split at he
  · next hpc =>
    cases he
    exact h.wakeOneWriter (by rw [hpc]; trivial) (by rw [hpc]; exact id) trivial
  · next c hpc =>
    cases he
    exact h.wunlockWriters hpc
  · next c hpc =>
    cases he
    exact h.wunlockReaders hpc
  · next c hpc =>
    cases he
    exact h.wakeOneWriter (by rw [hpc]; trivial) (by rw [hpc]; exact id) (Caller.next_passive c).1
  · next c hpc =>
    cases he
    exact h.wakeAllReaders (by rw [hpc]; trivial) (by rw [hpc]; exact id) (Caller.next_passive c).1
  · next hpc =>
    cases he
    exact h.wunlockSection (by rw [hpc]; trivial) _
  · next hpc =>
    cases he
    exact h.downgraded hpc
  · cases he

/-- **Every step keeps the invariant**, for a thread that releases only what it holds. -/
theorem step (h : Inv s) {a : RwAction τ} (ha : s.Allowed a) (he : s.exec a = some (l, s')) :
    Inv s' := by
  cases a with
  | rlock t => exact h.step_rlock he
  | tryRlock t => exact h.step_tryRlock he
  | runlock t => exact h.step_runlock ha he
  | tryUpgrade t => exact h.step_tryUpgrade ha he
  | wlock t => exact h.step_wlock he
  | tryWlock t => exact h.step_tryWlock he
  | wunlock t => exact h.step_wunlock he
  | downgrade t => exact h.step_downgrade ha he
  | resume t => exact h.step_resume he
  | next t => exact h.step_next he

end steps

/-! ### Progress in quiescent states -/

omit [DecidableEq τ] in
/-- A writer in `writer_wait_lockable` in a quiescent state: the lock is held, or a writer is
woken and will take `_mtx`. -/
theorem writer_progress (h : Inv s) (hq : s.Quiescent) (hw : ∃ t, (s.pc t).InWriterWait) :
    s.Held ∨ ∃ u, s.pc u = .writeWoken := by
  obtain ⟨t, ht | ht⟩ := hw
  · have hc : s.condWriters ≠ [] := List.ne_nil_of_mem ((h.waiters.condWriters_mem t).mpr ht)
    rcases h.served.writers hc with hh | hw | ⟨u, hu⟩
    · exact .inl hh
    · exact .inr hw
    · exact absurd hu (hq.no_wakes u).1
  · exact .inr ⟨t, ht⟩

omit [DecidableEq τ] in
/-- A reader in `reader_wait_lockable` in a quiescent state: the lock is held, or a reader is
woken, or the readers wait behind a writer, and then a writer is woken. -/
theorem reader_progress (h : Inv s) (hq : s.Quiescent) (hr : ∃ t, (s.pc t).InReaderWait) :
    s.Held ∨ (∃ u, s.pc u = .readWoken) ∨ ∃ u, s.pc u = .writeWoken := by
  obtain ⟨t, ht | ht⟩ := hr
  · have hc : s.condReaders ≠ [] := List.ne_nil_of_mem ((h.waiters.condReaders_mem t).mpr ht)
    rcases h.served.readers hc with ho | hw | ⟨u, hu⟩
    · exact .inl (.inl ho)
    · -- `_write_waiters` counts a writer in `writer_wait_lockable`
      have hpos : 0 < s.writeWaitCount := h.waiters.writeWaiters_count ▸ Nat.pos_of_ne_zero hw
      rcases writer_progress h hq (Count.num_pos.mp hpos) with hh | hw
      · exact .inl hh
      · exact .inr (.inr hw)
    · exact absurd hu (hq.no_wakes u).2
  · exact .inr (.inl ⟨t, ht⟩)

end Inv

/-- The invariant holds in every reachable state. -/
theorem inv_reachable (hs : Reachable (rwlock τ) s) : Inv s :=
  Inductive.reachable ⟨fun _ hi => hi ▸ Inv.init, fun _ _ _ h ⟨_, ha, he⟩ => h.step ha he⟩ hs

/-- **Exclusion and progress of `rwlock`.**  In every reachable state there is no owner while
read locks are held, an owner of recursion depth zero when there is none, and the waiter
counters count the threads in `reader_wait_lockable` and `writer_wait_lockable`.  When every
thread is idle or in one of them: a writer there has the lock held against it or a woken writer
to go on; a reader there has the lock held, a woken reader, or a woken writer, ahead of which
it waits. -/
theorem rwlock_exclusion_and_progress (hs : Reachable (rwlock τ) s) :
    (s.wowner ≠ none → s.readers = 0) ∧ (s.wowner = none → s.wrecurse = 0) ∧
      s.readWaiters = (Finset.univ.filter fun t => s.pc t = .readWaiting ∨ s.pc t = .readWoken).card ∧
      s.writeWaiters =
        (Finset.univ.filter fun t => s.pc t = .writeWaiting ∨ s.pc t = .writeWoken).card ∧
      (s.Quiescent → (∃ t, s.pc t = .writeWaiting ∨ s.pc t = .writeWoken) →
        s.Held ∨ ∃ u, s.pc u = .writeWoken) ∧
      (s.Quiescent → (∃ t, s.pc t = .readWaiting ∨ s.pc t = .readWoken) →
        s.Held ∨ (∃ u, s.pc u = .readWoken) ∨ ∃ u, s.pc u = .writeWoken) := by
  have h := inv_reachable hs
  exact ⟨h.exclusion.owner_readers, h.exclusion.owner_recurse, h.waiters.readWaiters_count,
    h.waiters.writeWaiters_count, h.writer_progress, h.reader_progress⟩

/-- Thread `0` holds the write lock and thread `1` waits to read. -/
theorem rwlock_exclusion_and_progress_reader_waits : ∃ s : Rwlock (Fin 2),
    Reachable (rwlock (Fin 2)) s ∧ s.pc 1 = .readWaiting ∧
    ((s.wowner ≠ none → s.readers = 0) ∧ (s.wowner = none → s.wrecurse = 0) ∧
      s.readWaiters = (Finset.univ.filter fun t => s.pc t = .readWaiting ∨ s.pc t = .readWoken).card ∧
      s.writeWaiters =
        (Finset.univ.filter fun t => s.pc t = .writeWaiting ∨ s.pc t = .writeWoken).card ∧
      (s.Quiescent → (∃ t, s.pc t = .writeWaiting ∨ s.pc t = .writeWoken) →
        s.Held ∨ ∃ u, s.pc u = .writeWoken) ∧
      (s.Quiescent → (∃ t, s.pc t = .readWaiting ∨ s.pc t = .readWoken) →
        s.Held ∨ (∃ u, s.pc u = .readWoken) ∨ ∃ u, s.pc u = .writeWoken)) :=
  have hs : Reachable (rwlock (Fin 2)) _ :=
    .step (.step (.init rfl) ⟨.wlock 0, trivial, rfl⟩) ⟨.rlock 1, trivial, rfl⟩
  ⟨_, hs, rfl, rwlock_exclusion_and_progress hs⟩

/-- **A reader behind a woken writer.**  Thread `0` holds the write lock, thread `1` waits to
read and thread `2` to write; `0` unlocks and its `wunlock` wakes `2`.  In the quiescent state
reached, `1` is in `reader_wait_lockable` while the lock is free and no wake of
`_cond_readers` is pending: the wake it waits for comes from `2`, once it has the lock and
unlocks it. -/
theorem rwlock_reader_behind_woken_writer : ∃ s : Rwlock (Fin 3), Reachable (rwlock (Fin 3)) s ∧
    s.Quiescent ∧ s.pc 1 = .readWaiting ∧ ¬ s.Held ∧ ∀ u, s.pc u ≠ .readWoken := by
  have hs : Reachable (rwlock (Fin 3)) _ :=
    .step (.step (.step (.step (.step (.step (.init rfl)
      ⟨.wlock 0, trivial, rfl⟩) ⟨.rlock 1, trivial, rfl⟩) ⟨.wlock 2, trivial, rfl⟩)
      ⟨.wunlock 0, rfl, rfl⟩) ⟨.next 0, trivial, rfl⟩) ⟨.next 0, trivial, rfl⟩
  exact ⟨_, hs, by unfold Quiescent; decide, rfl, by unfold Held; decide, by decide⟩

/-- **No waiter is forgotten**, in every reachable state, quiescent or not.  Writers on
`_cond_writers` have the lock held against them, a woken writer, or a thread about to wake one
(`runlock` with `need_wake`, or `wunlock`); readers on `_cond_readers` have an owner, a writer
in `writer_wait_lockable`, or a `wunlock` that has still to test the waiter counters or to
wake them. -/
theorem rwlock_waiters_served (hs : Reachable (rwlock τ) s) :
    (s.condWriters ≠ [] → s.Held ∨ (∃ u, s.pc u = .writeWoken) ∨ ∃ u, (s.pc u).WakesWriters) ∧
    (s.condReaders ≠ [] → s.wowner ≠ none ∨ s.writeWaiters ≠ 0 ∨ ∃ u, (s.pc u).WakesReaders) :=
  ⟨(inv_reachable hs).served.writers, (inv_reachable hs).served.readers⟩

/-- Thread `1` waits to read while `0` is at the wakes of its `wunlock`. -/
theorem rwlock_waiters_served_wunlock : ∃ s : Rwlock (Fin 2), Reachable (rwlock (Fin 2)) s ∧
    s.condReaders = [1] ∧ s.wowner = none ∧
    (s.condWriters ≠ [] → s.Held ∨ (∃ u, s.pc u = .writeWoken) ∨ ∃ u, (s.pc u).WakesWriters) ∧
    (s.condReaders ≠ [] → s.wowner ≠ none ∨ s.writeWaiters ≠ 0 ∨ ∃ u, (s.pc u).WakesReaders) :=
  have hs : Reachable (rwlock (Fin 2)) _ :=
    .step (.step (.step (.init rfl) ⟨.wlock 0, trivial, rfl⟩) ⟨.rlock 1, trivial, rfl⟩)
      ⟨.wunlock 0, rfl, rfl⟩
  ⟨_, hs, rfl, rfl, rwlock_waiters_served hs⟩

end Rwlock

end Osv.Sync
