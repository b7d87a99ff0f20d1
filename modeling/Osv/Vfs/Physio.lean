import Osv.Lib.Runs
import Osv.Lib.Transition

/-!
# Splitting a block request: multiplex_strategy

`multiplex_strategy(bio)` (`fs/vfs/kern_physio.c`) is the strategy of a device whose driver
takes at most `max_io_size` bytes a request.  It adds the device's offset to `bio_offset` and
hands a bio that fits to the driver's strategy as it is.  A larger one is cut into sub-bios of
`max_io_size` bytes, the last one shorter, with `bio_refcnt` set beforehand to their number.
Each sub-bio completes through `multiplex_bio_done`.  On a failure it sets `BIO_ERROR` on the
original bio under `bio_mutex`, and the last one to drop the count calls `biodone(bio, true)`.
`biodone` sets `BIO_DONE` under the mutex and signals `bio_wait`, which waits for it under the
same mutex.

**The model.**  The split is `multiplexStrategy`, a function of the bio's offset, size and
buffer.  The completions are a system (`MultiplexState`, `multiplexSystem k`) for an original
bio cut into `k` sub-bios, all in flight, and one thread in `bio_wait` on it.  Each step is
one whole `multiplex_bio_done` of a sub-bio by some other thread, with its outcome, or one
pass of `bio_wait` through its mutex.  The mutex is the recursive `lockfree::mutex` that
`pthread_mutex_t` is in OSv: an owner and a depth, and a thread that cannot take it waits,
here a step that is not enabled.

**What holds.**  The sub-bios tile the device range and the buffer in order, each at most
`max_io_size` bytes (`multiplexLoop_tiles`), and there are as many as the count is set to
(`multiplexStrategy_count`).  With fewer than `2 ^ 32` of them, in every reachable state the
count is the number still in flight, and `biodone` of the original bio has been called exactly
once when none is left and not before.  `BIO_ERROR` is set exactly when a sub-bio failed
(`inv_reachable`).

**What does not** (`multiplex_error_keeps_mutex`).  The failure branch of
`multiplex_bio_done` locks `bio_mutex` twice and never unlocks it.  After a failed sub-bio the
thread that completed it holds the mutex for good.  The thread in `bio_wait` never takes it
back, so `bio_wait` never returns.
-/

namespace Osv.Vfs

open Transition

/-! ## The split -/

/-- The fields of a bio that `multiplex_strategy` reads or gives its sub-bios: `bio_cmd`,
`bio_offset`, `bio_bcount` and `bio_data`. -/
structure Bio where
  cmd : ℕ
  offset : ℕ
  bcount : ℕ
  data : ℕ
  deriving DecidableEq, Repr

/-- The loop `while (len > 0)` of `multiplex_strategy`, with fuel: the sub-bios, in the order
the strategy gets them. -/
def multiplexLoop (maxIoSize cmd : ℕ) : ℕ → ℕ → ℕ → ℕ → List Bio
  | 0, _, _, _ => []
  | fuel + 1, len, buf, offset =>
      if 0 < len then
        ⟨cmd, offset, min len maxIoSize, buf⟩ ::
          multiplexLoop maxIoSize cmd fuel (len - min len maxIoSize) (buf + min len maxIoSize)
            (offset + min len maxIoSize)
      else []

theorem multiplexLoop_zero (maxIoSize cmd len buf offset : ℕ) :
    multiplexLoop maxIoSize cmd 0 len buf offset = [] := rfl

theorem multiplexLoop_succ (maxIoSize cmd fuel len buf offset : ℕ) :
    multiplexLoop maxIoSize cmd (fuel + 1) len buf offset =
      if 0 < len then
        ⟨cmd, offset, min len maxIoSize, buf⟩ ::
          multiplexLoop maxIoSize cmd fuel (len - min len maxIoSize) (buf + min len maxIoSize)
            (offset + min len maxIoSize)
      else [] := rfl

/-- `multiplex_strategy(bio)` on a device of offset `devOffset`: the bios the driver's
strategy is called with, and the value `bio_refcnt` is set to when the bio is split. -/
def multiplexStrategy (devOffset maxIoSize : ℕ) (bio : Bio) : List Bio × Option ℕ :=
  if bio.bcount ≤ maxIoSize then ([{ bio with offset := bio.offset + devOffset }], none)
  else
    (multiplexLoop maxIoSize bio.cmd bio.bcount bio.bcount bio.data (bio.offset + devOffset),
      some ((bio.bcount / maxIoSize + if bio.bcount % maxIoSize = 0 then 0 else 1) % 2 ^ 32))

/-- The device bytes of a bio. -/
def Bio.sectors (b : Bio) : List ℕ := List.range' b.offset b.bcount

/-- The buffer bytes of a bio. -/
def Bio.buffer (b : Bio) : List ℕ := List.range' b.data b.bcount

section Split

variable {maxIoSize cmd : ℕ}

/-- **The sub-bios tile the request.**  With the fuel the loop needs, the sub-bios carry the
command, each has between one and `max_io_size` bytes, and their device bytes and buffer
bytes are, in order, those of the whole request. -/
theorem multiplexLoop_tiles (hmax : 0 < maxIoSize) :
    ∀ fuel len buf offset, len ≤ fuel →
      (∀ b ∈ multiplexLoop maxIoSize cmd fuel len buf offset,
        b.cmd = cmd ∧ 0 < b.bcount ∧ b.bcount ≤ maxIoSize) ∧
      (multiplexLoop maxIoSize cmd fuel len buf offset).flatMap Bio.sectors =
        List.range' offset len ∧
      (multiplexLoop maxIoSize cmd fuel len buf offset).flatMap Bio.buffer =
        List.range' buf len := by
  intro fuel
  induction fuel with
  | zero =>
      intro len buf offset hlen
      obtain rfl : len = 0 := by omega
      simp [multiplexLoop_zero]
  | succ fuel ih =>
      intro len buf offset hlen
      by_cases hpos : 0 < len
      · -- one sub-bio of `min len max_io_size` bytes, then the rest of the range
        have hreq : 0 < min len maxIoSize := lt_min hpos hmax
        obtain ⟨hall, hsec, hbuf⟩ :=
          ih (len - min len maxIoSize) (buf + min len maxIoSize) (offset + min len maxIoSize)
            (by omega)
        simp only [multiplexLoop_succ, if_pos hpos, List.mem_cons, List.flatMap_cons, hsec, hbuf]
        refine ⟨?_, ?_, ?_⟩
        · rintro b (rfl | hb)
          · exact ⟨rfl, hreq, min_le_right _ _⟩
          · exact hall b hb
        · show List.range' offset (min len maxIoSize) ++
            List.range' (offset + min len maxIoSize) (len - min len maxIoSize) = _
          rw [List.range'_append_1]
          congr 1
          omega
        · show List.range' buf (min len maxIoSize) ++
            List.range' (buf + min len maxIoSize) (len - min len maxIoSize) = _
          rw [List.range'_append_1]
          congr 1
          omega
      · obtain rfl : len = 0 := by omega
        simp [multiplexLoop_succ]

/-- The loop makes as many sub-bios as `len / max_io_size + !!(len % max_io_size)`. -/
theorem length_multiplexLoop (hmax : 0 < maxIoSize) :
    ∀ fuel len buf offset, len ≤ fuel →
      (multiplexLoop maxIoSize cmd fuel len buf offset).length =
        len / maxIoSize + if len % maxIoSize = 0 then 0 else 1 := by
  intro fuel
  induction fuel with
  | zero =>
      intro len buf offset hlen
      obtain rfl : len = 0 := by omega
      simp [multiplexLoop_zero]
  | succ fuel ih =>
      intro len buf offset hlen
      by_cases hpos : 0 < len
      · simp only [multiplexLoop_succ, if_pos hpos, List.length_cons]
        rw [ih _ _ _ (by omega)]
        by_cases hle : len ≤ maxIoSize
        · -- the last sub-bio
          rw [min_eq_left hle, Nat.sub_self]
          rcases Nat.lt_or_ge len maxIoSize with hlt | hge
          · simp [Nat.div_eq_of_lt hlt, Nat.mod_eq_of_lt hlt, Nat.pos_iff_ne_zero.mp hpos]
          · obtain rfl : len = maxIoSize := le_antisymm hle hge
            simp [Nat.div_self hmax]
        · -- a full sub-bio: one quotient less, the same remainder
          rw [min_eq_right (by omega)]
          obtain ⟨r, rfl⟩ : ∃ r, len = r + maxIoSize := ⟨len - maxIoSize, by omega⟩
          rw [Nat.add_sub_cancel, Nat.add_div_right r hmax, Nat.add_mod_right]
          omega
      · obtain rfl : len = 0 := by omega
        simp [multiplexLoop_succ]

/-- **What the driver gets.**  For a request of one byte or more, the bios the driver's
strategy is called with carry its command, have between one and `max_io_size` bytes each,
and tile, in order, the request's bytes on the disk, past the device's offset, and its
buffer. -/
theorem multiplexStrategy_tiles (devOffset : ℕ) (hmax : 0 < maxIoSize) {bio : Bio}
    (hlen : 0 < bio.bcount) :
    (∀ b ∈ (multiplexStrategy devOffset maxIoSize bio).1,
      b.cmd = bio.cmd ∧ 0 < b.bcount ∧ b.bcount ≤ maxIoSize) ∧
    (multiplexStrategy devOffset maxIoSize bio).1.flatMap Bio.sectors =
      List.range' (bio.offset + devOffset) bio.bcount ∧
    (multiplexStrategy devOffset maxIoSize bio).1.flatMap Bio.buffer =
      List.range' bio.data bio.bcount := by
  unfold multiplexStrategy
  by_cases hfit : bio.bcount ≤ maxIoSize
  · rw [if_pos hfit]
    refine ⟨?_, ?_, ?_⟩
    · intro b hb
      rw [List.mem_singleton] at hb
      subst hb
      exact ⟨rfl, hlen, hfit⟩
    · simp [Bio.sectors]
    · simp [Bio.buffer]
  · rw [if_neg hfit]
    exact multiplexLoop_tiles hmax _ _ _ _ le_rfl

/-- A split request sets the count to the number of its sub-bios, as a `u_int`. -/
theorem multiplexStrategy_count (devOffset : ℕ) (hmax : 0 < maxIoSize) {bio : Bio}
    (hsplit : maxIoSize < bio.bcount) :
    (multiplexStrategy devOffset maxIoSize bio).2 =
      some ((multiplexStrategy devOffset maxIoSize bio).1.length % 2 ^ 32) := by
  unfold multiplexStrategy
  rw [if_neg (by omega), length_multiplexLoop hmax _ _ _ _ le_rfl]

end Split

/-! ## The recursive mutex -/

/-- A `lockfree::mutex`: the thread that holds it and how many times. -/
structure RecMutex where
  owner : Option ℕ
  depth : ℕ
  deriving DecidableEq, Repr

namespace RecMutex

/-- The mutex no thread holds. -/
def free : RecMutex := ⟨none, 0⟩

/-- `mutex::lock()` by thread `t`; none while another thread holds it, where `t` waits. -/
def lock (m : RecMutex) (t : ℕ) : Option RecMutex :=
  match m.owner with
  | none => some ⟨some t, 1⟩
  | some u => if u = t then some ⟨some t, m.depth + 1⟩ else none

/-- `mutex::unlock()` by the thread that holds it. -/
def unlock (m : RecMutex) : RecMutex :=
  if m.depth ≤ 1 then free else ⟨m.owner, m.depth - 1⟩

theorem lock_eq_some {m m' : RecMutex} {t : ℕ} (h : m.lock t = some m') :
    (m.owner = none ∧ m' = ⟨some t, 1⟩) ∨ (m.owner = some t ∧ m' = ⟨some t, m.depth + 1⟩) := by
  unfold lock at h
  split at h
  · rename_i hown
    exact .inl ⟨hown, (Option.some.inj h).symm⟩
  · rename_i u hown
    split_ifs at h with hu
    subst hu
    exact .inr ⟨hown, (Option.some.inj h).symm⟩

@[simp] theorem lock_free (t : ℕ) : free.lock t = some ⟨some t, 1⟩ := rfl

@[simp] theorem unlock_one (t : ℕ) : (⟨some t, 1⟩ : RecMutex).unlock = free := rfl

theorem lock_owner {m : RecMutex} {t : ℕ} (hown : m.owner = some t) :
    m.lock t = some ⟨some t, m.depth + 1⟩ := by
  simp [lock, hown]

theorem unlock_of_two_le {o : Option ℕ} {d : ℕ} (hd : 1 ≤ d) :
    (⟨o, d + 1⟩ : RecMutex).unlock = ⟨o, d⟩ := by
  simp [unlock, show ¬ d + 1 ≤ 1 by omega]

/-- A lock and an unlock leave a mutex as it was, when it is free exactly at depth zero. -/
theorem unlock_lock {m m' : RecMutex} {t : ℕ} (hwf : m.owner = none ↔ m.depth = 0)
    (h : m.lock t = some m') : m'.unlock = m := by
  rcases lock_eq_some h with ⟨hown, rfl⟩ | ⟨hown, rfl⟩
  · cases m
    simp_all [free]
  · have hd : 1 ≤ m.depth := by
      rw [hown] at hwf
      simp at hwf
      omega
    rw [unlock_of_two_le hd, ← hown]

/-- Two locks by one thread add two to the depth. -/
theorem lock_lock {m m₁ m₂ : RecMutex} {t : ℕ} (hwf : m.owner = none ↔ m.depth = 0)
    (h₁ : m.lock t = some m₁) (h₂ : m₁.lock t = some m₂) :
    m₂ = ⟨some t, m.depth + 2⟩ ∧ (m.owner = none ∨ m.owner = some t) := by
  rcases lock_eq_some h₁ with ⟨hown, rfl⟩ | ⟨hown, rfl⟩
  · rw [lock_owner rfl, Option.some.injEq] at h₂
    exact ⟨by rw [← h₂, hwf.mp hown], .inl hown⟩
  · rw [lock_owner rfl, Option.some.injEq] at h₂
    exact ⟨h₂.symm, .inr hown⟩

/-- A thread other than the owner never takes the mutex. -/
theorem lock_of_owner_ne {m : RecMutex} {t u : ℕ} (hown : m.owner = some u) (hne : u ≠ t) :
    m.lock t = none := by
  simp [lock, hown, hne]

end RecMutex

/-! ## Completing the sub-bios -/

/-- `EIO`, which `bio_wait` returns for a bio with `BIO_ERROR`. -/
def EIO : ℕ := 5

/-- Where the thread in `bio_wait` is. -/
inductive WaitPc where
  /-- before `pthread_mutex_lock` -/
  | start
  /-- in `pthread_cond_wait`, with the mutex released -/
  | waiting
  /-- signalled, to take the mutex back -/
  | woken
  /-- returned `ret` -/
  | returned (ret : ℕ)
  deriving DecidableEq, Repr

/-- The thread in `bio_wait`. -/
def waiterThread : ℕ := 0

/-- The original bio of a split request: `BIO_DONE`, `BIO_ERROR`, `bio_refcnt` and
`bio_mutex`; the sub-bios still in flight; and, as ghosts, how many failed and how many times
`biodone` was called on it; and the thread in `bio_wait`. -/
structure MultiplexState where
  done : Bool
  error : Bool
  refcnt : ℕ
  mutex : RecMutex
  pending : List ℕ
  failed : ℕ
  doneCalls : ℕ
  waiter : WaitPc
  deriving DecidableEq, Repr

/-- A step of a completing thread or of the thread in `bio_wait`. -/
inductive MultiplexOp where
  /-- thread `t` completes sub-bio `i`, which succeeded or not -/
  | complete (i t : ℕ) (ok : Bool)
  /-- the thread in `bio_wait` runs -/
  | wait
  deriving DecidableEq, Repr

namespace MultiplexState

/-- The original bio after `multiplex_strategy` handed out its `k` sub-bios. -/
def init (k : ℕ) : MultiplexState :=
  ⟨false, false, k % 2 ^ 32, .free, List.range k, 0, 0, .start⟩

/-- `biodone(bio, true)` on the original bio by thread `t`: `BIO_DONE` under the mutex and,
as `bio_done` is null, a signal to `bio_wait` before the unlock. -/
def biodone (s : MultiplexState) (t : ℕ) : Option MultiplexState :=
  (s.mutex.lock t).map fun m =>
    { s with
      done := true
      doneCalls := s.doneCalls + 1
      waiter := if s.waiter = .waiting then .woken else s.waiter
      mutex := m.unlock }

/-- The failure branch of `multiplex_bio_done`: `BIO_ERROR` set between two locks of the
mutex by thread `t`, and no unlock. -/
def setError (s : MultiplexState) (t : ℕ) : Option MultiplexState :=
  ((s.mutex.lock t).bind (·.lock t)).map fun m => { s with error := true, mutex := m }

/-- `refcount_release(&bio->bio_refcnt)`: the `u_int` count dropped by one.  It returns
whether the count was one. -/
def release (s : MultiplexState) : MultiplexState :=
  { s with refcnt := (s.refcnt + 2 ^ 32 - 1) % 2 ^ 32 }

@[simp] theorem release_mutex (s : MultiplexState) : s.release.mutex = s.mutex := by
  unfold release
  rfl

@[simp] theorem release_waiter (s : MultiplexState) : s.release.waiter = s.waiter := by
  unfold release
  rfl

/-- `multiplex_bio_done` of sub-bio `i` by thread `t`, called by `biodone(b, ok)`. -/
def multiplexBioDone (s : MultiplexState) (i t : ℕ) (ok : Bool) : Option MultiplexState :=
  let s := { s with pending := s.pending.erase i, failed := if ok then s.failed else s.failed + 1 }
  (if ok then some s else s.setError t).bind fun s =>
    if s.refcnt = 1 then s.release.biodone t else some s.release

/-- One pass of `bio_wait` from its lock: it returns when `BIO_DONE` is set, and otherwise
waits in `pthread_cond_wait`, which releases the mutex. -/
def waitPass (s : MultiplexState) : Option MultiplexState :=
  (s.mutex.lock waiterThread).map fun m =>
    if s.done then { s with mutex := m.unlock, waiter := .returned (if s.error then EIO else 0) }
    else { s with mutex := m.unlock, waiter := .waiting }

/-- One step; none where the thread would wait, or for a sub-bio not in flight. -/
def step (s : MultiplexState) : MultiplexOp → Option MultiplexState
  | .complete i t ok =>
      if i ∈ s.pending ∧ t ≠ waiterThread then s.multiplexBioDone i t ok else none
  | .wait =>
      match s.waiter with
      | .start | .woken => s.waitPass
      | _ => none

end MultiplexState

/-- Every interleaving of the completions of `k` sub-bios, in any order and with any
outcomes, with the thread in `bio_wait`. -/
def multiplexSystem (k : ℕ) : System MultiplexState MultiplexOp :=
  System.ofFun (· = MultiplexState.init k) MultiplexState.step

/-! ## What every reachable state satisfies -/

namespace MultiplexState

variable {k : ℕ} {s s' : MultiplexState}

/-- The invariant of a request of fewer than `2 ^ 32` sub-bios.  The count is the number of
sub-bios in flight, `biodone` has been called once when none is left and not before, and
`BIO_ERROR` records a failure.  Before a failure the mutex is free between steps; after one,
a completing thread holds it at least twice.  `bio_wait` returned only for a bio that did not
fail. -/
structure Inv (s : MultiplexState) : Prop where
  nodup : s.pending.Nodup
  small : s.pending.length < 2 ^ 32
  refcnt : s.refcnt = s.pending.length
  done : s.done = true ↔ s.pending = []
  doneCalls : s.doneCalls = if s.pending = [] then 1 else 0
  error : s.error = true ↔ 0 < s.failed
  free : s.failed = 0 → s.mutex = .free
  held : 0 < s.failed → ∃ t, t ≠ waiterThread ∧ s.mutex.owner = some t ∧ 2 ≤ s.mutex.depth
  returned : ∀ ret, s.waiter = .returned ret → s.done = true ∧ s.failed = 0 ∧ ret = 0

theorem inv_init (hk0 : 0 < k) (hk : k < 2 ^ 32) : (init k).Inv where
  nodup := List.nodup_range
  small := by simpa [init] using hk
  refcnt := by simp only [init, List.length_range]; exact Nat.mod_eq_of_lt hk
  done := by simp [init]; omega
  doneCalls := by simp [init]; omega
  error := by simp [init]
  free _ := rfl
  held h := absurd h (by simp [init])
  returned _ h := by simp [init] at h

/-- The count after a release is the count of the sub-bios left. -/
theorem Inv.release_refcnt (hs : s.Inv) {i : ℕ} (hi : i ∈ s.pending) :
    (s.refcnt + 2 ^ 32 - 1) % 2 ^ 32 = (s.pending.erase i).length ∧
      (s.refcnt = 1 ↔ s.pending.erase i = []) := by
  have hlen := List.length_erase_of_mem hi
  have hpos := List.length_pos_of_mem hi
  rw [hs.refcnt]
  refine ⟨?_, ?_⟩
  · rw [show s.pending.length + 2 ^ 32 - 1 = s.pending.length - 1 + 2 ^ 32 by omega,
      Nat.add_mod_right, Nat.mod_eq_of_lt (by have := hs.small; omega), hlen]
  · rw [← List.length_eq_zero_iff, hlen]
    omega

/-- The mutex is free exactly at depth zero. -/
theorem Inv.mutex_wf (hs : s.Inv) : s.mutex.owner = none ↔ s.mutex.depth = 0 := by
  rcases Nat.eq_zero_or_pos s.failed with h | h
  · simp [hs.free h, RecMutex.free]
  · obtain ⟨t, -, hown, hd⟩ := hs.held h
    rw [hown]
    simp only [reduceCtorEq, false_iff]
    omega

/-- **What a completion does.**  The sub-bio leaves and the count drops with it; a failure
sets `BIO_ERROR` and leaves the mutex held twice more by the completing thread; the last
completion sets `BIO_DONE`, calls `biodone` once and wakes `bio_wait`.  A lock taken on the way
found the mutex free or held by the same thread. -/
theorem multiplexBioDone_spec (hs : s.Inv) {i t : ℕ} {ok : Bool} (hi : i ∈ s.pending)
    (h : s.multiplexBioDone i t ok = some s') :
    s'.pending = s.pending.erase i ∧ s'.refcnt = (s.pending.erase i).length ∧
    s'.failed = (if ok then s.failed else s.failed + 1) ∧ s'.error = (s.error || !ok) ∧
    s'.done = (s.done || decide (s.pending.erase i = [])) ∧
    s'.doneCalls = s.doneCalls + (if s.pending.erase i = [] then 1 else 0) ∧
    s'.waiter = (if s.pending.erase i = [] ∧ s.waiter = .waiting then .woken else s.waiter) ∧
    s'.mutex = (if ok then s.mutex else ⟨some t, s.mutex.depth + 2⟩) ∧
    (ok = false ∨ s.pending.erase i = [] → s.mutex.owner = none ∨ s.mutex.owner = some t) := by
  obtain ⟨hrefcnt, hlast⟩ := hs.release_refcnt hi
  unfold multiplexBioDone at h
  obtain ⟨s₂, h₂, h⟩ := Option.bind_eq_some_iff.mp h
  -- the failure branch: two locks, `BIO_ERROR`
  obtain ⟨m₂, rfl, hmutex, hlocked⟩ : ∃ m₂, s₂ = { s with
      pending := s.pending.erase i
      failed := if ok then s.failed else s.failed + 1
      error := s.error || !ok
      mutex := m₂ } ∧
      m₂ = (if ok then s.mutex else ⟨some t, s.mutex.depth + 2⟩) ∧
      (ok = false → s.mutex.owner = none ∨ s.mutex.owner = some t) := by
    cases ok with
    | true =>
        cases h₂
        exact ⟨s.mutex, by simp, rfl, by simp⟩
    | false =>
        obtain ⟨m₂, hm, rfl⟩ := Option.map_eq_some_iff.mp h₂
        obtain ⟨m₁, hm₁, hm₂⟩ := Option.bind_eq_some_iff.mp hm
        obtain ⟨rfl, hown⟩ := RecMutex.lock_lock hs.mutex_wf hm₁ hm₂
        exact ⟨_, by simp, rfl, fun _ => hown⟩
  simp only [release] at h
  by_cases hl : s.pending.erase i = []
  · -- the last completion: `biodone` of the original bio
    rw [if_pos (hlast.mpr hl)] at h
    obtain ⟨m, hm, rfl⟩ := Option.map_eq_some_iff.mp h
    have hwf : m₂.owner = none ↔ m₂.depth = 0 := by
      rw [hmutex]
      cases ok
      · simp
      · exact hs.mutex_wf
    have hunlock := RecMutex.unlock_lock hwf hm
    refine ⟨rfl, hrefcnt, rfl, rfl, by simp [hl], by simp [hl], by simp [hl], hunlock ▸ hmutex,
      fun _ => ?_⟩
    cases ok
    · exact hlocked rfl
    · rw [hmutex] at hm
      rcases RecMutex.lock_eq_some hm with ⟨hown, -⟩ | ⟨hown, -⟩
      · exact .inl hown
      · exact .inr hown
  · rw [if_neg (mt hlast.mp hl)] at h
    cases h
    refine ⟨rfl, hrefcnt, rfl, rfl, by simp [hl], by simp [hl], by simp [hl], hmutex, ?_⟩
    rintro (hok | hl')
    · exact hlocked hok
    · exact absurd hl' hl

theorem Inv.multiplexBioDone (hs : s.Inv) {i t : ℕ} {ok : Bool} (hi : i ∈ s.pending)
    (ht : t ≠ waiterThread) (h : s.multiplexBioDone i t ok = some s') : s'.Inv := by
  obtain ⟨hp, hr, hf, he, hd, hc, hw, hm, -⟩ := multiplexBioDone_spec hs hi h
  have hne : s.pending ≠ [] := List.ne_nil_of_mem hi
  have hdone : s.done = false := by simpa [hne] using hs.done
  have hcalls : s.doneCalls = 0 := by simpa [hne] using hs.doneCalls
  refine ⟨hp ▸ hs.nodup.erase i, ?_, hr.trans (by rw [hp]), ?_, ?_, ?_, fun h0 => ?_, fun hpos => ?_,
    fun ret hret => ?_⟩
  · rw [hp]
    exact lt_of_le_of_lt List.length_erase_le hs.small
  · simp [hd, hdone, hp]
  · rw [hc, hcalls, hp]
    simp
  · cases ok <;> simp [he, hf, hs.error]
  · -- no failure yet: the mutex is as free as it was
    cases ok
    · simp [hf] at h0
    · rw [hm, if_pos rfl]
      exact hs.free (by simpa [hf] using h0)
  · cases ok
    · rw [hm, if_neg Bool.false_ne_true]
      exact ⟨t, ht, rfl, Nat.le_add_left 2 _⟩
    · rw [hm, if_pos rfl]
      exact hs.held (by simpa [hf] using hpos)
  · -- `bio_wait` had not returned: the bio was not done
    rw [hw] at hret
    split_ifs at hret
    have := (hs.returned ret hret).1
    rw [hdone] at this
    cases this

theorem Inv.waitPass (hs : s.Inv) (h : s.waitPass = some s') : s'.Inv := by
  obtain ⟨m, hm, rfl⟩ := Option.map_eq_some_iff.mp h
  -- the mutex could be taken, so no sub-bio has failed and it was free
  have hf : s.failed = 0 := by
    by_contra hpos
    obtain ⟨t, ht, hown, -⟩ := hs.held (Nat.pos_of_ne_zero hpos)
    rw [RecMutex.lock_of_owner_ne hown ht] at hm
    cases hm
  have hunlock : m.unlock = .free := by
    rw [hs.free hf, RecMutex.lock_free, Option.some.injEq] at hm
    rw [← hm, RecMutex.unlock_one]
  have herror : s.error = false := by simpa [hf] using hs.error
  by_cases hd : s.done = true
  · rw [if_pos hd]
    refine ⟨hs.nodup, hs.small, hs.refcnt, hs.done, hs.doneCalls, hs.error, fun _ => hunlock,
      fun h => absurd hf (Nat.pos_iff_ne_zero.mp h), fun ret hret => ⟨hd, hf, ?_⟩⟩
    simp only [herror, Bool.false_eq_true, ↓reduceIte, WaitPc.returned.injEq] at hret
    exact hret.symm
  · rw [if_neg hd]
    exact ⟨hs.nodup, hs.small, hs.refcnt, hs.done, hs.doneCalls, hs.error, fun _ => hunlock,
      fun h => absurd hf (Nat.pos_iff_ne_zero.mp h), fun ret hret => by simp at hret⟩

theorem Inv.step (hs : s.Inv) {op : MultiplexOp} (h : s.step op = some s') : s'.Inv := by
  cases op with
  | complete i t ok =>
      simp only [MultiplexState.step] at h
      split_ifs at h with hit
      exact hs.multiplexBioDone hit.1 hit.2 h
  | wait =>
      simp only [MultiplexState.step] at h
      split at h
      · exact hs.waitPass h
      · exact hs.waitPass h
      · cases h

/-- **Completion is counted right.**  For a request cut into fewer than `2 ^ 32` sub-bios, in
every reachable state the invariant holds: `biodone` of the original bio has been called once
when no sub-bio is in flight and not before, and `BIO_ERROR` is set exactly when one failed. -/
theorem inv_reachable (hk0 : 0 < k) (hk : k < 2 ^ 32) (hs : Reachable (multiplexSystem k) s) :
    s.Inv :=
  Inductive.reachable ⟨fun _ h => h ▸ inv_init hk0 hk, fun _ _ _ h hstep => h.step hstep⟩ hs

/-! ## After a failed sub-bio -/

/-- Thread `t` holds the mutex at least twice, and `bio_wait` has not returned. -/
def HeldBy (t : ℕ) (s : MultiplexState) : Prop :=
  s.mutex.owner = some t ∧ 2 ≤ s.mutex.depth ∧ ∀ ret, s.waiter ≠ .returned ret

theorem setError_heldBy {t u : ℕ} {s₂ : MultiplexState} (hs : HeldBy t s)
    (h : s.setError u = some s₂) : HeldBy t s₂ := by
  obtain ⟨m, hm, rfl⟩ := Option.map_eq_some_iff.mp h
  obtain ⟨m₁, hm₁, hm₂⟩ := Option.bind_eq_some_iff.mp hm
  -- only the owner takes the mutex: twice more
  have hu : t = u := by
    by_contra hne
    rw [RecMutex.lock_of_owner_ne hs.1 hne] at hm₁
    cases hm₁
  subst hu
  have hwf : s.mutex.owner = none ↔ s.mutex.depth = 0 := by
    simp only [hs.1, reduceCtorEq, false_iff]
    have := hs.2.1
    omega
  obtain ⟨rfl, -⟩ := RecMutex.lock_lock hwf hm₁ hm₂
  exact ⟨rfl, by simp, hs.2.2⟩

theorem biodone_heldBy {t u : ℕ} {s₂ : MultiplexState} (hs : HeldBy t s)
    (h : s.biodone u = some s₂) : HeldBy t s₂ := by
  obtain ⟨m, hm, rfl⟩ := Option.map_eq_some_iff.mp h
  have hu : t = u := by
    by_contra hne
    rw [RecMutex.lock_of_owner_ne hs.1 hne] at hm
    cases hm
  subst hu
  have hwf : s.mutex.owner = none ↔ s.mutex.depth = 0 := by
    simp only [hs.1, reduceCtorEq, false_iff]
    have := hs.2.1
    omega
  have hunlock := RecMutex.unlock_lock hwf hm
  refine ⟨by rw [hunlock, hs.1], by rw [hunlock]; exact hs.2.1, fun ret hret => ?_⟩
  -- the signal only wakes a waiting `bio_wait`
  dsimp only at hret
  split_ifs at hret
  exact hs.2.2 ret hret

/-- No step takes the mutex from its owner or lets `bio_wait` return. -/
theorem HeldBy.step {t : ℕ} (ht : t ≠ waiterThread) (hs : HeldBy t s) {op : MultiplexOp}
    (h : s.step op = some s') : HeldBy t s' := by
  cases op with
  | complete i u ok =>
      simp only [MultiplexState.step] at h
      split_ifs at h
      unfold multiplexBioDone at h
      obtain ⟨s₂, h₂, h⟩ := Option.bind_eq_some_iff.mp h
      have hs₂ : HeldBy t s₂ := by
        cases ok
        · simp only [Bool.false_eq_true, ↓reduceIte] at h₂
          exact setError_heldBy
            (show HeldBy t { s with pending := s.pending.erase i, failed := s.failed + 1 } from hs) h₂
        · cases h₂
          exact hs
      -- the count drops; the last one calls `biodone`
      have hrel : HeldBy t s₂.release := by
        rw [HeldBy, release_mutex, release_waiter]
        exact hs₂
      split_ifs at h
      · exact biodone_heldBy hrel h
      · cases h
        exact hrel
  | wait =>
      simp only [MultiplexState.step] at h
      -- `bio_wait` cannot take the mutex
      have hwait : s.waitPass = none := by
        simp [waitPass, RecMutex.lock_of_owner_ne hs.1 ht]
      split at h
      · rw [hwait] at h
        cases h
      · rw [hwait] at h
        cases h
      · cases h

/-- **A failed sub-bio keeps the mutex for good.**  In every reachable state of a request cut
into fewer than `2 ^ 32` sub-bios where one of them has failed, a completing thread holds
`bio_mutex`, and in every run from there it still does and `bio_wait` never returns. -/
theorem multiplex_error_keeps_mutex (hk0 : 0 < k) (hk : k < 2 ^ 32)
    (hs : Reachable (multiplexSystem k) s) (hfail : 0 < s.failed) :
    ∃ t, t ≠ waiterThread ∧ ∀ ops s', Exec (multiplexSystem k) s ops s' →
      s'.mutex.owner = some t ∧ ∀ ret, s'.waiter ≠ .returned ret := by
  have hinv := inv_reachable hk0 hk hs
  obtain ⟨t, ht, hown, hd⟩ := hinv.held hfail
  have hheld : HeldBy t s := ⟨hown, hd, fun ret hret => by
    have := (hinv.returned ret hret).2.1
    omega⟩
  refine ⟨t, ht, fun ops s' hexec => ?_⟩
  have hend := hexec.preserves (I := HeldBy t) (fun _ _ _ h hstep => h.step ht hstep) hheld
  exact ⟨hend.1, hend.2.2⟩

/-- The request of two sub-bios after `bio_wait` went to sleep and thread 1 completed the
first one with an error. -/
def failedFirst : MultiplexState := ⟨false, true, 1, ⟨some 1, 2⟩, [1], 1, 0, .waiting⟩

theorem multiplex_error_keeps_mutex_first :
    (0 < 2 ∧ 2 < 2 ^ 32 ∧ Reachable (multiplexSystem 2) failedFirst ∧ 0 < failedFirst.failed) ∧
    ∃ t, t ≠ waiterThread ∧ ∀ ops s', Exec (multiplexSystem 2) failedFirst ops s' →
      s'.mutex.owner = some t ∧ ∀ ret, s'.waiter ≠ .returned ret :=
  have hreach : Reachable (multiplexSystem 2) failedFirst :=
    reachable_of_runFrom (.init rfl)
      (show runFrom step (init 2) [.wait, .complete 0 1 false] = some failedFirst from rfl)
  ⟨⟨by norm_num, by norm_num, hreach, by decide⟩,
    multiplex_error_keeps_mutex (by norm_num) (by norm_num) hreach (by decide)⟩

end MultiplexState

end Osv.Vfs
