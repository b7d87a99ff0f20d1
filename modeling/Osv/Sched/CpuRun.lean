import Mathlib
import Osv.Lib.Count
import Osv.Sched.Cpu

/-!
# The scheduler's invariant over every run

`Osv.Sched.sched` is the machine of `core/sched.cc`: every cpu's current thread and run queue,
the `incoming_wakeups` queues, and each thread's `_status`.  This module proves what the
scheduler relies on in every reachable state, for any number of cpus and threads and every
interleaving of their steps.

**Run queues.**  A thread is on a run queue exactly when its status is `queued`, and then on
that of its own cpu, once (`Inv.runqueue_mem`, `Inv.mem_runqueue`); a cpu's current thread is
never `queued`, and the idle thread of a cpu is its current thread or on its run queue.  So
the `runqueue.begin()` of `reschedule_from_interrupt` always finds a queued thread other than
the current one, and its assertions, those of `load_balance`, `prepare_wait` and `stop_wait`
hold (`sched_asserts_hold`).

**Wakeups in flight.**  A wakeup is *in flight* from the compare-exchange of `wake()` (or the
status change of a migration) until `handle_incoming_wakeups` takes the thread off its local
queue: it is in the push slot, in one `incoming_wakeups` queue, or in the local queue of one
call of `handle_incoming_wakeups`.  `inFlight s t` counts these places, and the count is one
while `t` is `waking` and zero otherwise (`Inv.flight`): a wakeup is never lost and never
doubled.  Counted along an execution (`Transition.Exec.account`), every successful `wake()` and
every migration of a thread is processed exactly once, except the one still in flight
(`sched_wakes_processed_once`).

**The positions.**  The steps of a thread depend on where it is in `wait_until` and
`stop_wait` (`ThreadPc`); `PcOk` says which statuses go with each position, and the idle
threads stay in their own code.  The frames of `handle_incoming_wakeups` of an ordinary thread
are at most one, of its current call, never `do_idle`'s.
-/

namespace Osv.Sched

open Transition

namespace Machine

variable {κ τ : Type*} [DecidableEq κ] [DecidableEq τ]

/-! ## The fields of the updates -/

section fields

variable (s : Machine κ τ) (t : Thread κ τ)

@[simp] theorem setStatus_status (st : Status) :
    (s.setStatus t st).status = Function.update s.status t st := rfl
@[simp] theorem setStatus_cpu (st : Status) : (s.setStatus t st).cpu = s.cpu := rfl
@[simp] theorem setStatus_pc (st : Status) : (s.setStatus t st).pc = s.pc := rfl
@[simp] theorem setStatus_frames (st : Status) : (s.setStatus t st).frames = s.frames := rfl
@[simp] theorem setStatus_current (st : Status) : (s.setStatus t st).current = s.current := rfl
@[simp] theorem setStatus_runqueue (st : Status) : (s.setStatus t st).runqueue = s.runqueue := rfl
@[simp] theorem setStatus_incomingWakeups (st : Status) :
    (s.setStatus t st).incomingWakeups = s.incomingWakeups := rfl
@[simp] theorem setStatus_pushing (st : Status) : (s.setStatus t st).pushing = s.pushing := rfl

@[simp] theorem setPc_status (p : ThreadPc) : (s.setPc t p).status = s.status := rfl
@[simp] theorem setPc_cpu (p : ThreadPc) : (s.setPc t p).cpu = s.cpu := rfl
@[simp] theorem setPc_pc (p : ThreadPc) : (s.setPc t p).pc = Function.update s.pc t p := rfl
@[simp] theorem setPc_frames (p : ThreadPc) : (s.setPc t p).frames = s.frames := rfl
@[simp] theorem setPc_current (p : ThreadPc) : (s.setPc t p).current = s.current := rfl
@[simp] theorem setPc_runqueue (p : ThreadPc) : (s.setPc t p).runqueue = s.runqueue := rfl
@[simp] theorem setPc_incomingWakeups (p : ThreadPc) :
    (s.setPc t p).incomingWakeups = s.incomingWakeups := rfl
@[simp] theorem setPc_pushing (p : ThreadPc) : (s.setPc t p).pushing = s.pushing := rfl

@[simp] theorem setFrames_status (fs : List (Frame κ τ)) : (s.setFrames t fs).status = s.status :=
  rfl
@[simp] theorem setFrames_cpu (fs : List (Frame κ τ)) : (s.setFrames t fs).cpu = s.cpu := rfl
@[simp] theorem setFrames_pc (fs : List (Frame κ τ)) : (s.setFrames t fs).pc = s.pc := rfl
@[simp] theorem setFrames_frames (fs : List (Frame κ τ)) :
    (s.setFrames t fs).frames = Function.update s.frames t fs := rfl
@[simp] theorem setFrames_current (fs : List (Frame κ τ)) :
    (s.setFrames t fs).current = s.current := rfl
@[simp] theorem setFrames_runqueue (fs : List (Frame κ τ)) :
    (s.setFrames t fs).runqueue = s.runqueue := rfl
@[simp] theorem setFrames_incomingWakeups (fs : List (Frame κ τ)) :
    (s.setFrames t fs).incomingWakeups = s.incomingWakeups := rfl
@[simp] theorem setFrames_pushing (fs : List (Frame κ τ)) :
    (s.setFrames t fs).pushing = s.pushing := rfl

@[simp] theorem startPush_status (st : Status) (c : κ) :
    (s.startPush t st c).status = Function.update s.status t st := rfl
@[simp] theorem startPush_cpu (st : Status) (c : κ) : (s.startPush t st c).cpu = s.cpu := rfl
@[simp] theorem startPush_pc (st : Status) (c : κ) : (s.startPush t st c).pc = s.pc := rfl
@[simp] theorem startPush_frames (st : Status) (c : κ) :
    (s.startPush t st c).frames = s.frames := rfl
@[simp] theorem startPush_current (st : Status) (c : κ) :
    (s.startPush t st c).current = s.current := rfl
@[simp] theorem startPush_runqueue (st : Status) (c : κ) :
    (s.startPush t st c).runqueue = s.runqueue := rfl
@[simp] theorem startPush_incomingWakeups (st : Status) (c : κ) :
    (s.startPush t st c).incomingWakeups = s.incomingWakeups := rfl
@[simp] theorem startPush_pushing (st : Status) (c : κ) :
    (s.startPush t st c).pushing = Function.update s.pushing t (some c) := rfl

section runqueue

omit [DecidableEq τ]

variable (x : κ)

@[simp] theorem setRunqueue_status (l : List (Thread κ τ)) :
    (s.setRunqueue x l).status = s.status := rfl
@[simp] theorem setRunqueue_cpu (l : List (Thread κ τ)) : (s.setRunqueue x l).cpu = s.cpu := rfl
@[simp] theorem setRunqueue_pc (l : List (Thread κ τ)) : (s.setRunqueue x l).pc = s.pc := rfl
@[simp] theorem setRunqueue_frames (l : List (Thread κ τ)) :
    (s.setRunqueue x l).frames = s.frames := rfl
@[simp] theorem setRunqueue_current (l : List (Thread κ τ)) :
    (s.setRunqueue x l).current = s.current := rfl
@[simp] theorem setRunqueue_runqueue (l : List (Thread κ τ)) :
    (s.setRunqueue x l).runqueue = Function.update s.runqueue x l := rfl
@[simp] theorem setRunqueue_incomingWakeups (l : List (Thread κ τ)) :
    (s.setRunqueue x l).incomingWakeups = s.incomingWakeups := rfl
@[simp] theorem setRunqueue_pushing (l : List (Thread κ τ)) :
    (s.setRunqueue x l).pushing = s.pushing := rfl

end runqueue

variable (x : κ)

@[simp] theorem beginHandle_status (c : Cont) : (s.beginHandle t x c).status = s.status := rfl
@[simp] theorem beginHandle_cpu (c : Cont) : (s.beginHandle t x c).cpu = s.cpu := rfl
@[simp] theorem beginHandle_pc (c : Cont) : (s.beginHandle t x c).pc = s.pc := rfl
@[simp] theorem beginHandle_frames (c : Cont) :
    (s.beginHandle t x c).frames =
      Function.update s.frames t (⟨s.incomingWakeupsMask x, [], c⟩ :: s.frames t) := rfl
@[simp] theorem beginHandle_current (c : Cont) : (s.beginHandle t x c).current = s.current := rfl
@[simp] theorem beginHandle_runqueue (c : Cont) :
    (s.beginHandle t x c).runqueue = s.runqueue := rfl
@[simp] theorem beginHandle_incomingWakeups (c : Cont) :
    (s.beginHandle t x c).incomingWakeups = s.incomingWakeups := rfl
@[simp] theorem beginHandle_pushing (c : Cont) : (s.beginHandle t x c).pushing = s.pushing := rfl

end fields

/-! ## Wakeups in flight -/

/-- How often `t` stands in the local queues of the frames `fs`. -/
def framesCount (fs : List (Frame κ τ)) (t : Thread κ τ) : ℕ := (fs.map fun f => f.q.count t).sum

@[simp] theorem framesCount_nil (t : Thread κ τ) : framesCount ([] : List (Frame κ τ)) t = 0 := rfl

@[simp] theorem framesCount_cons (f : Frame κ τ) (fs : List (Frame κ τ)) (t : Thread κ τ) :
    framesCount (f :: fs) t = f.q.count t + framesCount fs t := rfl

/-- A thread in the local queue of a frame of some thread is in flight. -/
theorem framesCount_pos_of_mem {fs : List (Frame κ τ)} {f : Frame κ τ} {t : Thread κ τ}
    (hf : f ∈ fs) (ht : t ∈ f.q) : 0 < framesCount fs t := by
  induction fs with
  | nil => simp at hf
  | cons g fs ih =>
      rcases List.mem_cons.mp hf with rfl | hf
      · simp [List.count_pos_iff.mpr ht]
      · simp only [framesCount_cons]
        have := ih hf
        omega

variable [Fintype κ]

/-- Replacing the queue `(x, i)` changes the incoming count by the difference of their counts. -/
theorem incomingCount_update (q : κ → κ → List (Thread κ τ)) (x i : κ) (l : List (Thread κ τ))
    (t : Thread κ τ) :
    (∑ a, ∑ c, (Function.update q x (Function.update (q x) i l) a c).count t) + (q x i).count t =
      (∑ a, ∑ c, (q a c).count t) + l.count t := by
  have := Count.sum_sum_update (fun a c => (q a c).count t) x i (l.count t)
  rw [← this]
  congr 1
  refine Finset.sum_congr rfl fun a _ => Finset.sum_congr rfl fun c _ => ?_
  by_cases ha : a = x
  · subst ha
    by_cases hc : c = i
    · subst hc
      simp
    · simp [Function.update_of_ne hc]
  · simp [Function.update_of_ne ha]

variable [Fintype τ]

/-- Replacing the frames of `h` changes the local count by the difference of their counts. -/
theorem localCount_update (fr : Thread κ τ → List (Frame κ τ)) (h : Thread κ τ)
    (fs : List (Frame κ τ)) (t : Thread κ τ) :
    (∑ g, framesCount (Function.update fr h fs g) t) + framesCount (fr h) t =
      (∑ g, framesCount (fr g) t) + framesCount fs t := by
  have := Count.sum_update (fun g => framesCount (fr g) t) h (framesCount fs t)
  rw [← this]
  congr 1
  refine Finset.sum_congr rfl fun g _ => ?_
  by_cases hg : g = h
  · subst hg
    simp
  · simp [Function.update_of_ne hg]

/-- The places a wakeup of `t` may be in: the push slot of `wake()` or of a migration, the
`incoming_wakeups` queues, and the local queues of the calls of `handle_incoming_wakeups`;
`inFlight s t` is how often `t` stands in them. -/
def inFlight (s : Machine κ τ) (t : Thread κ τ) : ℕ :=
  (s.pushing t).isSome.toNat + (∑ x, ∑ i, (s.incomingWakeups x i).count t) +
    ∑ h, framesCount (s.frames h) t

theorem inFlight_pos_of_incoming {s : Machine κ τ} {t : Thread κ τ} {x i : κ}
    (h : t ∈ s.incomingWakeups x i) : 0 < s.inFlight t := by
  have hxi : 0 < (s.incomingWakeups x i).count t := List.count_pos_iff.mpr h
  have hrow : (s.incomingWakeups x i).count t ≤ ∑ c, (s.incomingWakeups x c).count t :=
    Finset.single_le_sum (f := fun c => (s.incomingWakeups x c).count t)
      (fun _ _ => Nat.zero_le _) (Finset.mem_univ i)
  have hall : ∑ c, (s.incomingWakeups x c).count t ≤ ∑ a, ∑ c, (s.incomingWakeups a c).count t :=
    Finset.single_le_sum (f := fun a => ∑ c, (s.incomingWakeups a c).count t)
      (fun _ _ => Nat.zero_le _) (Finset.mem_univ x)
  unfold inFlight
  omega

theorem inFlight_pos_of_local {s : Machine κ τ} {t h : Thread κ τ} {f : Frame κ τ}
    (hf : f ∈ s.frames h) (ht : t ∈ f.q) : 0 < s.inFlight t := by
  have hpos := framesCount_pos_of_mem hf ht
  have hall : framesCount (s.frames h) t ≤ ∑ g, framesCount (s.frames g) t :=
    Finset.single_le_sum (f := fun g => framesCount (s.frames g) t)
      (fun _ _ => Nat.zero_le _) (Finset.mem_univ h)
  unfold inFlight
  omega

/-- Each part of the count of a thread that is in flight nowhere is zero. -/
theorem parts_of_inFlight_eq_zero {s : Machine κ τ} {t : Thread κ τ} (h : s.inFlight t = 0) :
    s.pushing t = none ∧ (∑ x, ∑ i, (s.incomingWakeups x i).count t) = 0 ∧
      ∑ g, framesCount (s.frames g) t = 0 := by
  unfold inFlight at h
  refine ⟨?_, by omega, by omega⟩
  have hsome : (s.pushing t).isSome.toNat = 0 := by omega
  simpa using hsome

/-! ## The invariant -/

/-- The statuses a thread may have at each position, given whether it is the current thread of
its cpu (`cur`) and whether it is inside no call of `handle_incoming_wakeups` (`noFrames`).
Between `prepare_wait` and `stop_wait` a thread is `waiting` until woken; in its own code it is
`running`, or `queued` and `waking` once preempted and migrated. -/
def PcOk : ThreadPc → Status → Prop → Prop → Prop
  | .run, st, cur, _ => st = .unstarted ∨ st = .running ∨ st = .queued ∨ (st = .waking ∧ ¬ cur)
  | .prepared, st, cur, noFrames => (st = .waiting ∨ st = .waking) ∧ cur ∧ noFrames
  | .stopWait, st, _, _ => st = .waiting ∨ st = .waking ∨ st = .running ∨ st = .queued
  | .stopLoop, st, _, _ => st = .waking ∨ st = .running ∨ st = .queued
  | .completing, st, _, _ => st = .terminating

/-- The run queues and the current threads. -/
structure Queues (s : Machine κ τ) : Prop where
  runqueue_mem : ∀ x t, t ∈ s.runqueue x → s.status t = .queued ∧ s.cpu t = x
  mem_runqueue : ∀ t, s.status t = .queued → t ∈ s.runqueue (s.cpu t)
  nodup : ∀ x, (s.runqueue x).Nodup
  cpu_current : ∀ x, s.cpu (s.current x) = x
  current_of_running : ∀ t, s.status t = .running → s.current (s.cpu t) = t
  current_not_queued : ∀ x, s.status (s.current x) ≠ .queued
  current_not_unstarted : ∀ x, s.status (s.current x) ≠ .unstarted
  idle_cpu : ∀ x, s.cpu (.idle x) = x
  idle_status : ∀ x, s.status (.idle x) = .running ∨ s.status (.idle x) = .queued

/-- Where the threads are. -/
structure Positions (s : Machine κ τ) : Prop where
  idle_pc : ∀ x, s.pc (.idle x) = .run
  pc_ok : ∀ t, PcOk (s.pc t) (s.status t) (s.current (s.cpu t) = t) (s.frames t = [])
  /-- An ordinary thread is inside at most one call of `handle_incoming_wakeups`, not
  `do_idle`'s, and only while it is current. -/
  user_frames : ∀ t, s.frames (.user t) = [] ∨
    ∃ f, s.frames (.user t) = [f] ∧ f.cont ≠ .idle ∧ s.current (s.cpu (.user t)) = .user t

/-- The wakeups in flight. -/
structure Wakeups (s : Machine κ τ) : Prop where
  flight : ∀ t, s.inFlight t = if s.status t = .waking then 1 else 0
  incoming_cpu : ∀ x i t, t ∈ s.incomingWakeups x i → s.cpu t = x
  local_cpu : ∀ g f t, f ∈ s.frames g → t ∈ f.q → s.cpu t = s.cpu g

/-- **The scheduler's invariant.** -/
structure Inv (s : Machine κ τ) : Prop where
  queues : s.Queues
  positions : s.Positions
  wakeups : s.Wakeups

theorem Initial.inv {s : Machine κ τ} (h : s.Initial) : s.Inv := by
  have hstatus : ∀ t, s.status t = .running ∨ s.status t = .unstarted := by
    rintro (x | t)
    · exact .inl (h.status_idle x)
    · exact .inr (h.status_user t)
  refine ⟨⟨?_, ?_, ?_, ?_, ?_, ?_, ?_, ?_, ?_⟩, ⟨?_, ?_, ?_⟩, ⟨?_, ?_, ?_⟩⟩
  · intro x t ht
    simp [h.runqueue x] at ht
  · intro t ht
    rcases hstatus t with h' | h' <;> simp [h'] at ht
  · intro x
    simp [h.runqueue x]
  · intro x
    rw [h.current x, h.cpu_idle x]
  · rintro (x | t) ht
    · rw [h.cpu_idle x, h.current x]
    · simp [h.status_user t] at ht
  · intro x
    simp [h.current x, h.status_idle x]
  · intro x
    simp [h.current x, h.status_idle x]
  · exact h.cpu_idle
  · exact fun x => .inl (h.status_idle x)
  · exact fun x => h.pc _
  · intro t
    rw [h.pc t]
    rcases hstatus t with h' | h' <;> simp [PcOk, h']
  · exact fun t => .inl (h.frames _)
  · intro t
    have hw : s.status t ≠ .waking := by rcases hstatus t with h' | h' <;> simp [h']
    simp [inFlight, hw, h.pushing t, h.incomingWakeups, h.frames]
  · intro x i t ht
    simp [h.incomingWakeups x i] at ht
  · intro g f t hf
    simp [h.frames g] at hf

/-! ### What the invariant gives at once -/

section facts

variable {s : Machine κ τ} (h : s.Inv)
include h

theorem Inv.waking_of_inFlight {t : Thread κ τ} (hpos : 0 < s.inFlight t) :
    s.status t = .waking := by
  have hf := h.wakeups.flight t
  by_contra hw
  rw [if_neg hw] at hf
  omega

theorem Inv.inFlight_eq_zero {t : Thread κ τ} (hw : s.status t ≠ .waking) : s.inFlight t = 0 := by
  rw [h.wakeups.flight t, if_neg hw]

theorem Inv.waking_of_incoming {t : Thread κ τ} {x i : κ} (ht : t ∈ s.incomingWakeups x i) :
    s.status t = .waking :=
  h.waking_of_inFlight (inFlight_pos_of_incoming ht)

theorem Inv.waking_of_local {t g : Thread κ τ} {f : Frame κ τ} (hf : f ∈ s.frames g)
    (ht : t ∈ f.q) : s.status t = .waking :=
  h.waking_of_inFlight (inFlight_pos_of_local hf ht)

/-- A thread that is not waking is in flight nowhere. -/
theorem Inv.nowhere {t : Thread κ τ} (hw : s.status t ≠ .waking) :
    s.pushing t = none ∧ (∀ x i, t ∉ s.incomingWakeups x i) ∧
      ∀ g f, f ∈ s.frames g → t ∉ f.q :=
  ⟨(parts_of_inFlight_eq_zero (h.inFlight_eq_zero hw)).1,
    fun _ _ ht => hw (h.waking_of_incoming ht), fun _ _ hf ht => hw (h.waking_of_local hf ht)⟩

theorem Inv.cpu_of_current {t : Thread κ τ} {x : κ} (hx : s.current x = t) : s.cpu t = x := by
  rw [← hx]
  exact h.queues.cpu_current x

/-- A thread current on some cpu is the current thread of its own cpu. -/
theorem Inv.current_cpu {t : Thread κ τ} {x : κ} (hx : s.current x = t) :
    s.current (s.cpu t) = t := by
  rw [h.cpu_of_current hx, hx]

theorem Inv.not_current_of_queued {t : Thread κ τ} (hq : s.status t = .queued) (x : κ) :
    s.current x ≠ t := fun hx => h.queues.current_not_queued x (hx ▸ hq)

theorem Inv.not_current_of_unstarted {t : Thread κ τ} (hu : s.status t = .unstarted) (x : κ) :
    s.current x ≠ t := fun hx => h.queues.current_not_unstarted x (hx ▸ hu)

theorem Inv.idle_not_waking (x : κ) : s.status (.idle x) ≠ .waking := by
  rcases h.queues.idle_status x with hx | hx <;> rw [hx] <;> decide

theorem Inv.idle_of_current (x : κ) (hx : s.current x = .idle x) : s.status (.idle x) = .running := by
  rcases h.queues.idle_status x with hs | hs
  · exact hs
  · exact absurd hx (h.not_current_of_queued hs x)

/-- A current thread in its own code runs. -/
theorem Inv.running_of_run {t : Thread κ τ} {x : κ} (hx : s.current x = t) (hpc : s.pc t = .run) :
    s.status t = .running := by
  have hpos := h.positions.pc_ok t
  rw [hpc] at hpos
  rcases hpos with hu | hr | hq | ⟨-, hnc⟩
  · exact absurd hx (h.not_current_of_unstarted hu x)
  · exact hr
  · exact absurd hx (h.not_current_of_queued hq x)
  · exact absurd (h.current_cpu hx) hnc

/-- An ordinary thread that is not current is inside no call of `handle_incoming_wakeups`. -/
theorem Inv.frames_user {t : τ} (hnc : s.current (s.cpu (.user t)) ≠ .user t) :
    s.frames (.user t) = [] := by
  rcases h.positions.user_frames t with hf | ⟨f, -, -, hc⟩
  · exact hf
  · exact absurd hc hnc

/-- Inside a call of `handle_incoming_wakeups` a thread is past `prepare_wait`'s test. -/
theorem Inv.pc_ne_prepared {t : Thread κ τ} (hfr : s.frames t ≠ []) : s.pc t ≠ .prepared := by
  intro hpc
  have hpos := h.positions.pc_ok t
  rw [hpc] at hpos
  exact hfr hpos.2.2

/-- The idle thread of a cpu is its current thread or waits on its run queue. -/
theorem Inv.idle_on_cpu (x : κ) : s.current x = .idle x ∨ .idle x ∈ s.runqueue x := by
  rcases h.queues.idle_status x with hr | hq
  · have hcur := h.queues.current_of_running _ hr
    rw [h.queues.idle_cpu x] at hcur
    exact .inl hcur
  · have hmem := h.queues.mem_runqueue _ hq
    rw [h.queues.idle_cpu x] at hmem
    exact .inr hmem

/-- A thread away from its own code is an ordinary thread. -/
theorem Inv.user_of_pc {g : Thread κ τ} (hpc : s.pc g ≠ .run) : ∃ t, g = .user t := by
  cases g with
  | idle x => exact absurd (h.positions.idle_pc x) hpc
  | user t => exact ⟨t, rfl⟩

end facts

omit [DecidableEq κ] [DecidableEq τ] [Fintype κ] [Fintype τ] in
theorem exists_user_of_isUser {g : Thread κ τ} (hg : g.IsUser) : ∃ t, g = .user t := by
  cases g with
  | idle x => exact hg.elim
  | user t => exact ⟨t, rfl⟩

/-! ### Steps that leave a part alone -/

omit [DecidableEq κ] [DecidableEq τ] [Fintype κ] [Fintype τ] in
theorem Queues.congr {s s' : Machine κ τ} (h : s.Queues) (hst : s'.status = s.status)
    (hcpu : s'.cpu = s.cpu) (hcur : s'.current = s.current) (hrq : s'.runqueue = s.runqueue) :
    s'.Queues := by
  obtain ⟨st, cpu, pc, fr, cur, rq, iw, m, pu, se⟩ := s'
  simp only at hst hcpu hcur hrq
  subst hst hcpu hcur hrq
  exact ⟨h.1, h.2, h.3, h.4, h.5, h.6, h.7, h.8, h.9⟩

omit [DecidableEq κ] [DecidableEq τ] [Fintype κ] [Fintype τ] in
theorem Positions.congr {s s' : Machine κ τ} (h : s.Positions) (hpc : s'.pc = s.pc)
    (hst : s'.status = s.status) (hcpu : s'.cpu = s.cpu) (hcur : s'.current = s.current)
    (hfr : s'.frames = s.frames) : s'.Positions := by
  obtain ⟨st, cpu, pc, fr, cur, rq, iw, m, pu, se⟩ := s'
  simp only at hpc hst hcpu hcur hfr
  subst hpc hst hcpu hcur hfr
  exact ⟨h.1, h.2, h.3⟩

theorem Wakeups.congr {s s' : Machine κ τ} (h : s.Wakeups) (hpu : s'.pushing = s.pushing)
    (hin : s'.incomingWakeups = s.incomingWakeups) (hfr : s'.frames = s.frames)
    (hst : s'.status = s.status) (hcpu : s'.cpu = s.cpu) : s'.Wakeups := by
  obtain ⟨st, cpu, pc, fr, cur, rq, iw, m, pu, se⟩ := s'
  simp only at hpu hin hfr hst hcpu
  subst hpu hin hfr hst hcpu
  exact ⟨h.1, h.2, h.3⟩

/-! ### How the count of a wakeup moves -/

section counts

variable (s : Machine κ τ)

theorem inFlight_startPush_self {t : Thread κ τ} (st : Status) (c : κ) (hp : s.pushing t = none) :
    (s.startPush t st c).inFlight t = s.inFlight t + 1 := by
  simp [inFlight, hp]
  omega

theorem inFlight_startPush_ne {t t' : Thread κ τ} (st : Status) (c : κ) (hne : t' ≠ t) :
    (s.startPush t st c).inFlight t' = s.inFlight t' := by
  simp [inFlight, Function.update_of_ne hne]

theorem inFlight_setFrames (g : Thread κ τ) (fs : List (Frame κ τ)) (t : Thread κ τ) :
    (s.setFrames g fs).inFlight t + framesCount (s.frames g) t = s.inFlight t + framesCount fs t := by
  have := localCount_update s.frames g fs t
  simp only [inFlight, setFrames_pushing, setFrames_incomingWakeups, setFrames_frames]
  omega

theorem inFlight_beginHandle (g : Thread κ τ) (x : κ) (c : Cont) (t : Thread κ τ) :
    (s.beginHandle g x c).inFlight t = s.inFlight t := by
  have := localCount_update s.frames g (⟨s.incomingWakeupsMask x, [], c⟩ :: s.frames g) t
  simp only [inFlight, beginHandle_pushing, beginHandle_incomingWakeups, beginHandle_frames]
  simp only [framesCount_cons, List.count_nil, zero_add] at this
  omega

/-- `push_front` moves a wakeup from the push slot to its queue. -/
theorem inFlight_pushFront {t : Thread κ τ} {c : κ} (hp : s.pushing t = some c) (t' : Thread κ τ) :
    (s.pushFront t c).inFlight t' = s.inFlight t' := by
  have hq := incomingCount_update s.incomingWakeups (s.cpu t) c
    (t :: s.incomingWakeups (s.cpu t) c) t'
  unfold inFlight pushFront
  simp only at hq ⊢
  by_cases ht : t' = t
  · subst ht
    simp only [Function.update_self, List.count_cons_self, hp] at hq ⊢
    simp only [Option.isSome_none, Option.isSome_some, Bool.toNat_false, Bool.toNat_true]
    omega
  · simp only [Function.update_of_ne ht, List.count_cons, beq_iff_eq] at hq ⊢
    simp only [Ne.symm ht, if_false] at hq ⊢
    omega

/-- `copy_and_clear` moves the wakeups of a queue into the local queue of a frame. -/
theorem inFlight_copyAndClear {g : Thread κ τ} {f : Frame κ τ} {rest : List (Frame κ τ)} {x i : κ}
    (hfr : s.frames g = f :: rest) (hq : f.q = []) (t : Thread κ τ) :
    (s.copyAndClear g f rest x i).inFlight t = s.inFlight t := by
  have hin := incomingCount_update s.incomingWakeups x i [] t
  have hloc := localCount_update s.frames g
    (⟨f.queuesWithWakes.erase i, s.incomingWakeups x i, f.cont⟩ :: rest) t
  unfold inFlight copyAndClear
  simp only [hfr, framesCount_cons, hq, List.count_nil] at hin hloc ⊢
  omega

/-- The count of a wakeup does not move when a call of `handle_incoming_wakeups` whose local
queue is empty returns. -/
theorem inFlight_popFrame {s : Machine κ τ} {g : Thread κ τ} {f : Frame κ τ}
    {rest : List (Frame κ τ)} (hfr : s.frames g = f :: rest) (hq : f.q = []) (t : Thread κ τ) :
    (s.setFrames g rest).inFlight t = s.inFlight t := by
  have hcount := inFlight_setFrames s g rest t
  rw [hfr, framesCount_cons, hq, List.count_nil, zero_add] at hcount
  omega

@[simp] theorem inFlight_with_cpu (f : Thread κ τ → κ) (t : Thread κ τ) :
    ({ s with cpu := f } : Machine κ τ).inFlight t = s.inFlight t := rfl

@[simp] theorem inFlight_setStatus (g : Thread κ τ) (st : Status) (t : Thread κ τ) :
    (s.setStatus g st).inFlight t = s.inFlight t := rfl

@[simp] theorem inFlight_setPc (g : Thread κ τ) (p : ThreadPc) (t : Thread κ τ) :
    (s.setPc g p).inFlight t = s.inFlight t := rfl

@[simp] theorem inFlight_setRunqueue (x : κ) (l : List (Thread κ τ)) (t : Thread κ τ) :
    (s.setRunqueue x l).inFlight t = s.inFlight t := rfl

end counts

/-! ### Steps of one thread -/

omit [DecidableEq κ] [DecidableEq τ] [Fintype κ] [Fintype τ] in
/-- Only `prepare_wait`'s test asks whether the thread is inside `handle_incoming_wakeups`. -/
theorem PcOk.frames_irrel {p : ThreadPc} {st : Status} {cur nf nf' : Prop} (hp : p ≠ .prepared)
    (h : PcOk p st cur nf) : PcOk p st cur nf' := by
  cases p with
  | prepared => exact absurd rfl hp
  | _ => exact h

/-! The status changes of a thread that another thread makes, and what they need of its
position. -/

section transfer

omit [DecidableEq κ] [DecidableEq τ] [Fintype κ] [Fintype τ]

variable {p : ThreadPc} {cur nf cur' nf' : Prop}

/-- A thread not yet running, or queued, that becomes `waking`: `start()` and `load_balance`. -/
theorem PcOk.to_waking {st : Status} (h : PcOk p st cur nf)
    (hst : st = .unstarted ∨ st = .queued) (hcur : ¬ cur') : PcOk p .waking cur' nf' := by
  cases p <;> rcases hst with rfl | rfl <;> simp_all [PcOk]

/-- A waiting thread that `wake()` makes `waking`. -/
theorem PcOk.waiting_to_waking (h : PcOk p .waiting cur nf) : PcOk p .waking cur nf := by
  cases p <;> simp_all [PcOk]

/-- A woken thread that is not current is queued by `handle_incoming_wakeups`. -/
theorem PcOk.waking_to_queued (h : PcOk p .waking cur nf) (hcur : ¬ cur) :
    PcOk p .queued cur' nf' := by
  cases p <;> simp_all [PcOk]

/-- A woken thread that is current, inside `handle_incoming_wakeups`, is made running. -/
theorem PcOk.waking_to_running (h : PcOk p .waking cur nf) (hcur : cur) (hnf : ¬ nf) :
    PcOk p .running cur' nf' := by
  cases p <;> simp_all [PcOk]

/-- `reschedule_from_interrupt` requeues a running thread it switches away from. -/
theorem PcOk.running_to_queued (h : PcOk p .running cur nf) : PcOk p .queued cur' nf' := by
  cases p <;> simp_all [PcOk]

/-- `reschedule_from_interrupt` runs a queued thread. -/
theorem PcOk.queued_to_running (h : PcOk p .queued cur nf) : PcOk p .running cur' nf' := by
  cases p <;> simp_all [PcOk]

/-- A current thread that `reschedule_from_interrupt` lets go without requeueing it, from inside
`handle_incoming_wakeups`, is past `prepare_wait` and outside its own code. -/
theorem PcOk.leave {st : Status} (h : PcOk p st cur nf) (hcur : cur) (hnf : ¬ nf)
    (hst : st ≠ .unstarted ∧ st ≠ .running ∧ st ≠ .queued) : PcOk p st cur' nf' := by
  cases p <;> simp_all [PcOk]

end transfer

/-- **A call of `handle_incoming_wakeups` begins**, by the current thread `g` of `x`, past
`prepare_wait`'s test; an ordinary thread enters it only from its own code, never as
`do_idle`. -/
theorem Inv.beginHandle {s : Machine κ τ} (h : s.Inv) {g : Thread κ τ} {x : κ} {c : Cont}
    (hx : s.current x = g) (hpc : s.pc g ≠ .prepared)
    (huser : ∀ t, g = .user t → s.frames g = [] ∧ c ≠ .idle) : (s.beginHandle g x c).Inv := by
  refine ⟨h.queues.congr rfl rfl rfl rfl, ⟨h.positions.idle_pc, ?_, ?_⟩, ⟨?_, h.wakeups.incoming_cpu, ?_⟩⟩
  · intro t
    by_cases ht : t = g
    · subst ht
      exact (h.positions.pc_ok t).frames_irrel hpc
    · simpa [Function.update_of_ne ht] using h.positions.pc_ok t
  · intro t
    by_cases ht : Thread.user t = g
    · obtain ⟨hnil, hc⟩ := huser t ht.symm
      subst ht
      refine .inr ⟨⟨s.incomingWakeupsMask x, [], c⟩, by simp [hnil], hc, ?_⟩
      simpa using h.current_cpu hx
    · simpa [Function.update_of_ne ht] using h.positions.user_frames t
  · intro t
    rw [inFlight_beginHandle]
    exact h.wakeups.flight t
  · intro g' f t hf ht
    by_cases hg : g' = g
    · subst hg
      simp only [beginHandle_frames, Function.update_self, List.mem_cons] at hf
      rcases hf with rfl | hf
      · simp at ht
      · exact h.wakeups.local_cpu _ f t hf ht
    · simp only [beginHandle_frames, Function.update_of_ne hg] at hf
      exact h.wakeups.local_cpu g' f t hf ht

/-- **A call of `handle_incoming_wakeups` returns**, its local queue emptied. -/
theorem Inv.popFrame {s : Machine κ τ} (h : s.Inv) {g : Thread κ τ} {f : Frame κ τ}
    {rest : List (Frame κ τ)} (hfr : s.frames g = f :: rest) (hq : f.q = []) :
    (s.setFrames g rest).Inv := by
  have hpc : s.pc g ≠ .prepared := h.pc_ne_prepared (by simp [hfr])
  refine ⟨h.queues.congr rfl rfl rfl rfl, ⟨h.positions.idle_pc, ?_, ?_⟩, ⟨?_, h.wakeups.incoming_cpu, ?_⟩⟩
  · intro t
    by_cases ht : t = g
    · subst ht
      exact (h.positions.pc_ok t).frames_irrel hpc
    · simpa [Function.update_of_ne ht] using h.positions.pc_ok t
  · intro t
    by_cases ht : Thread.user t = g
    · subst ht
      -- an ordinary thread has at most the one frame
      rcases h.positions.user_frames t with hnil | ⟨f', hf', -, -⟩
      · simp [hnil] at hfr
      · rw [hf'] at hfr
        simp only [List.cons.injEq] at hfr
        exact .inl (by simp [← hfr.2])
    · simpa [Function.update_of_ne ht] using h.positions.user_frames t
  · intro t
    rw [setFrames_status, inFlight_popFrame hfr hq]
    exact h.wakeups.flight t
  · intro g' f' t hf ht
    by_cases hg : g' = g
    · subst hg
      simp only [setFrames_frames, Function.update_self] at hf
      exact h.wakeups.local_cpu g' f' t (by simp [hfr, hf]) ht
    · simp only [setFrames_frames, Function.update_of_ne hg] at hf
      exact h.wakeups.local_cpu g' f' t hf ht

omit [Fintype κ] [Fintype τ] in
theorem setStatus_self (s : Machine κ τ) (t : Thread κ τ) : s.setStatus t (s.status t) = s := by
  simp [setStatus]

omit [Fintype κ] [Fintype τ] in
/-- A thread's status changes to one a thread in its place may have: not `queued` or
`unstarted`, `running` only while it is current, and for an idle thread only `running`. -/
theorem Queues.setStatus {s : Machine κ τ} (hq : s.Queues) {g : Thread κ τ} {b : Status}
    (hgq : s.status g ≠ .queued) (hbq : b ≠ .queued) (hbu : b ≠ .unstarted)
    (hrun : b = .running → s.current (s.cpu g) = g) (hidle : ∀ y, g = .idle y → b = .running) :
    (s.setStatus g b).Queues := by
  refine ⟨?_, ?_, hq.nodup, hq.cpu_current, ?_, ?_, ?_, hq.idle_cpu, ?_⟩
  · intro y t ht
    have hmem := hq.runqueue_mem y t ht
    have hne : t ≠ g := by
      rintro rfl
      exact hgq hmem.1
    simpa [Function.update_of_ne hne] using hmem
  · intro t ht
    rcases eq_or_ne t g with rfl | hne
    · simp [hbq] at ht
    · simp only [setStatus_status, Function.update_of_ne hne] at ht
      exact hq.mem_runqueue t ht
  · intro t ht
    rcases eq_or_ne t g with rfl | hne
    · simpa using hrun (by simpa using ht)
    · simp only [setStatus_status, Function.update_of_ne hne] at ht
      exact hq.current_of_running t ht
  · intro y
    rcases eq_or_ne (s.current y) g with hy | hy
    · simp [hy, hbq]
    · simpa [Function.update_of_ne hy] using hq.current_not_queued y
  · intro y
    rcases eq_or_ne (s.current y) g with hy | hy
    · simp [hy, hbu]
    · simpa [Function.update_of_ne hy] using hq.current_not_unstarted y
  · intro y
    rcases eq_or_ne (Thread.idle y) g with hy | hy
    · simp [← hy, hidle y hy.symm]
    · simpa [Function.update_of_ne hy] using hq.idle_status y

omit [Fintype κ] [Fintype τ] in
/-- The current thread of `x` changes its status, to one a current thread may have. -/
theorem Queues.setStatus_current {s : Machine κ τ} (hq : s.Queues) {g : Thread κ τ} {x : κ}
    {b : Status} (hx : s.current x = g) (hbq : b ≠ .queued) (hbu : b ≠ .unstarted)
    (hidle : ∀ y, g = .idle y → b = .running) : (s.setStatus g b).Queues :=
  hq.setStatus (hx ▸ hq.current_not_queued x) hbq hbu
    (fun _ => by rw [← hx, hq.cpu_current x]) hidle

omit [Fintype κ] [Fintype τ] in
/-- A thread's status changes to one its position allows. -/
theorem Positions.setStatus {s : Machine κ τ} (hp : s.Positions) {g : Thread κ τ} {b : Status}
    (hok : PcOk (s.pc g) b (s.current (s.cpu g) = g) (s.frames g = [])) :
    (s.setStatus g b).Positions := by
  refine ⟨hp.idle_pc, ?_, hp.user_frames⟩
  intro t
  rcases eq_or_ne t g with rfl | hne
  · simpa using hok
  · simpa [Function.update_of_ne hne] using hp.pc_ok t

/-- A status change that keeps a thread waking, or not waking, keeps the wakeups. -/
theorem Wakeups.setStatus {s : Machine κ τ} (hw : s.Wakeups) {g : Thread κ τ} {b : Status}
    (hb : s.status g = .waking ↔ b = .waking) : (s.setStatus g b).Wakeups := by
  refine ⟨fun t => ?_, hw.incoming_cpu, hw.local_cpu⟩
  rw [inFlight_setStatus, hw.flight t]
  rcases eq_or_ne t g with rfl | hne
  · by_cases hwk : b = .waking
    · simp [hwk, hb.mpr hwk]
    · simp [hwk, mt hb.mp hwk]
  · simp [Function.update_of_ne hne]

/-- **The current thread moves in its own code**, from status `s.status g` to `b` and to the
position `p`, with no wakeup started or ended: `prepare_wait`, the two ends of `stop_wait`'s
exchange, `complete()`, and the tests between them. -/
theorem Inv.setStatusPc {s : Machine κ τ} (h : s.Inv) {t : τ} {x : κ} {b : Status} {p : ThreadPc}
    (hx : s.current x = .user t) (hbq : b ≠ .queued) (hbu : b ≠ .unstarted)
    (hwake : s.status (.user t) = .waking ↔ b = .waking)
    (hok : PcOk p b (s.current (s.cpu (.user t)) = .user t) (s.frames (.user t) = [])) :
    ((s.setStatus (.user t) b).setPc (.user t) p).Inv := by
  refine ⟨(h.queues.setStatus_current hx hbq hbu fun _ he => by cases he).congr rfl rfl rfl rfl,
    ⟨h.positions.idle_pc, fun t' => ?_, h.positions.user_frames⟩,
    (h.wakeups.setStatus hwake).congr rfl rfl rfl rfl rfl⟩
  rcases eq_or_ne t' (.user t) with rfl | hne
  · simpa using hok
  · simpa [Function.update_of_ne hne] using h.positions.pc_ok t'

/-- **Only the position moves**: the tests of `wait_until` and `stop_wait`. -/
theorem Inv.setPc {s : Machine κ τ} (h : s.Inv) {t : τ} {x : κ} {p : ThreadPc}
    (hx : s.current x = .user t)
    (hok : PcOk p (s.status (.user t)) (s.current (s.cpu (.user t)) = .user t)
      (s.frames (.user t) = [])) :
    (s.setPc (.user t) p).Inv := by
  have hst := h.setStatusPc (b := s.status (.user t)) hx
    (by rw [← hx]; exact h.queues.current_not_queued x)
    (by rw [← hx]; exact h.queues.current_not_unstarted x) Iff.rfl hok
  rwa [setStatus_self] at hst

/-- **A successful `wake()`**: its compare-exchange takes a waiting thread to `waking`, with the
push to come. -/
theorem Inv.wakeWaiting {s : Machine κ τ} (h : s.Inv) {t : Thread κ τ} {c : κ}
    (hw : s.status t = .waiting) : (s.startPush t .waking c).Inv := by
  have hpu : s.pushing t = none := (h.nowhere (by rw [hw]; decide)).1
  -- an idle thread never waits
  have hidle : ∀ y, t ≠ .idle y := by
    rintro y rfl
    rcases h.queues.idle_status y with h' | h' <;> rw [h'] at hw <;> cases hw
  have hq : (s.setStatus t .waking).Queues :=
    h.queues.setStatus (by rw [hw]; decide) (by decide) (by decide) (fun he => by cases he)
      fun y he => absurd he (hidle y)
  have hok : PcOk (s.pc t) .waking (s.current (s.cpu t) = t) (s.frames t = []) := by
    have hold := h.positions.pc_ok t
    rw [hw] at hold
    exact hold.waiting_to_waking
  refine ⟨hq.congr rfl rfl rfl rfl, (h.positions.setStatus hok).congr rfl rfl rfl rfl rfl,
    ⟨fun t' => ?_, h.wakeups.incoming_cpu, h.wakeups.local_cpu⟩⟩
  rcases eq_or_ne t' t with rfl | ht
  · rw [inFlight_startPush_self s _ _ hpu, h.inFlight_eq_zero (by rw [hw]; decide)]
    simp
  · rw [inFlight_startPush_ne s _ _ ht, h.wakeups.flight t']
    simp [Function.update_of_ne ht]

omit [DecidableEq τ] [Fintype κ] [Fintype τ] in
/-- What stands in a queue after one queue `(x, i)` is replaced by `l`. -/
theorem mem_update_update {q : κ → κ → List (Thread κ τ)} {x i y j : κ} {l : List (Thread κ τ)}
    {t : Thread κ τ} (ht : t ∈ Function.update q x (Function.update (q x) i l) y j) :
    (y = x ∧ j = i ∧ t ∈ l) ∨ t ∈ q y j := by
  by_cases hy : y = x
  · subst hy
    by_cases hj : j = i
    · subst hj
      exact .inl ⟨rfl, rfl, by simpa using ht⟩
    · exact .inr (by simpa [Function.update_of_ne hj] using ht)
  · exact .inr (by simpa [Function.update_of_ne hy] using ht)

/-- A frame of `g` replaced by one returning to the same place keeps the positions. -/
theorem Inv.positions_replaceFront {s : Machine κ τ} (h : s.Inv) {g : Thread κ τ}
    {f : Frame κ τ} (f' : Frame κ τ) {rest : List (Frame κ τ)} (hfr : s.frames g = f :: rest)
    (hc : f'.cont = f.cont) : (s.setFrames g (f' :: rest)).Positions := by
  have hpc : s.pc g ≠ .prepared := h.pc_ne_prepared (by simp [hfr])
  refine ⟨h.positions.idle_pc, ?_, ?_⟩
  · intro t
    rcases eq_or_ne t g with rfl | ht
    · exact (h.positions.pc_ok t).frames_irrel hpc
    · simpa [Function.update_of_ne ht] using h.positions.pc_ok t
  · intro t
    rcases eq_or_ne (Thread.user t) g with rfl | ht
    · -- an ordinary thread's one frame is replaced by one
      rcases h.positions.user_frames t with hnil | ⟨f₀, hf₀, hc₀, hcur⟩
      · simp [hnil] at hfr
      · rw [hf₀, List.cons.injEq] at hfr
        obtain ⟨rfl, rfl⟩ := hfr
        exact .inr ⟨f', by simp, hc ▸ hc₀, hcur⟩
    · simpa [Function.update_of_ne ht] using h.positions.user_frames t

/-- A frame of `g` replaced by one whose local queue holds threads of `g`'s cpu keeps the
local queues on their cpus. -/
theorem Inv.local_cpu_replaceFront {s : Machine κ τ} (h : s.Inv) {g : Thread κ τ}
    {f : Frame κ τ} (f' : Frame κ τ) {rest : List (Frame κ τ)} (hfr : s.frames g = f :: rest)
    (hq : ∀ t ∈ f'.q, s.cpu t = s.cpu g) :
    ∀ g' f'' t, f'' ∈ (s.setFrames g (f' :: rest)).frames g' → t ∈ f''.q →
      (s.setFrames g (f' :: rest)).cpu t = (s.setFrames g (f' :: rest)).cpu g' := by
  intro g' f'' t hf ht
  rcases eq_or_ne g' g with rfl | hg
  · simp only [setFrames_frames, Function.update_self, List.mem_cons] at hf
    rcases hf with rfl | hf
    · exact hq t ht
    · exact h.wakeups.local_cpu _ f'' t (by simp [hfr, hf]) ht
  · simp only [setFrames_frames, Function.update_of_ne hg] at hf
    exact h.wakeups.local_cpu g' f'' t hf ht

/-- **`push_front`** puts the thread of a wakeup in progress on its cpu's queue. -/
theorem Inv.pushFront {s : Machine κ τ} (h : s.Inv) {t : Thread κ τ} {c : κ}
    (hp : s.pushing t = some c) : (s.pushFront t c).Inv := by
  refine ⟨h.queues.congr rfl rfl rfl rfl, h.positions.congr rfl rfl rfl rfl rfl,
    ⟨?_, ?_, h.wakeups.local_cpu⟩⟩
  · intro t'
    rw [inFlight_pushFront s hp]
    exact h.wakeups.flight t'
  · intro y i t' ht'
    rcases mem_update_update ht' with ⟨rfl, -, ht'⟩ | ht'
    · rcases List.mem_cons.mp ht' with rfl | ht'
      · rfl
      · exact h.wakeups.incoming_cpu _ _ t' ht'
    · exact h.wakeups.incoming_cpu _ _ t' ht'

/-- **`copy_and_clear`** moves a queue into the local queue of the current call. -/
theorem Inv.copyAndClear {s : Machine κ τ} (h : s.Inv) {g : Thread κ τ} {f : Frame κ τ}
    {rest : List (Frame κ τ)} {x i : κ} (hx : s.current x = g) (hfr : s.frames g = f :: rest)
    (hq : f.q = []) : (s.copyAndClear g f rest x i).Inv := by
  have hcg : s.cpu g = x := h.cpu_of_current hx
  refine ⟨h.queues.congr rfl rfl rfl rfl,
    (h.positions_replaceFront ⟨f.queuesWithWakes.erase i, s.incomingWakeups x i, f.cont⟩ hfr
      rfl).congr rfl rfl rfl rfl rfl, ⟨?_, ?_, ?_⟩⟩
  · intro t
    rw [inFlight_copyAndClear s hfr hq]
    exact h.wakeups.flight t
  · intro y j t ht
    rcases mem_update_update ht with ⟨-, -, ht⟩ | ht
    · simp at ht
    · exact h.wakeups.incoming_cpu _ _ t ht
  · -- the queue taken holds threads of this cpu
    exact h.local_cpu_replaceFront _ hfr fun t ht => (h.wakeups.incoming_cpu x i t ht).trans hcg.symm

omit [Fintype κ] [Fintype τ] in
/-- What stands in a run queue after one of them lost `u`. -/
theorem mem_update_erase {rq : κ → List (Thread κ τ)} {x z : κ} {u t : Thread κ τ}
    (hnd : (rq x).Nodup) (ht : t ∈ Function.update rq x ((rq x).erase u) z) :
    t ∈ rq z ∧ (z = x → t ≠ u) := by
  rcases eq_or_ne z x with rfl | hz
  · rw [Function.update_self] at ht
    obtain ⟨hne, hmem⟩ := hnd.mem_erase_iff.mp ht
    exact ⟨hmem, fun _ => hne⟩
  · rw [Function.update_of_ne hz] at ht
    exact ⟨ht, fun h => absurd h hz⟩

omit [Fintype κ] [Fintype τ] in
theorem setRunqueue_erase_of_not_mem (s : Machine κ τ) {x : κ} {t : Thread κ τ}
    (ht : t ∉ s.runqueue x) : s.setRunqueue x ((s.runqueue x).erase t) = s := by
  rw [List.erase_of_not_mem ht]
  simp [setRunqueue]

/-- **A wakeup begins for a thread that does not run**: the `wake()` of `start()` for an
unstarted thread, and `load_balance` taking a queued thread off the run queue of `x` for cpu
`y`.  The thread becomes `waking` with its `push_front` from cpu `c` to come. -/
theorem Inv.moveWaking {s : Machine κ τ} (h : s.Inv) {t : τ} {x y c : κ}
    (hst : s.status (.user t) = .unstarted ∨
      (s.status (.user t) = .queued ∧ s.cpu (.user t) = x)) :
    ({ (s.setRunqueue x ((s.runqueue x).erase (.user t))).startPush (.user t) .waking c with
        cpu := Function.update s.cpu (.user t) y } : Machine κ τ).Inv := by
  have hq := h.queues
  have hnw : s.status (.user t) ≠ .waking := by
    rcases hst with h' | ⟨h', -⟩ <;> rw [h'] <;> decide
  have hnc : ∀ z, s.current z ≠ .user t := by
    rcases hst with h' | ⟨h', -⟩
    · exact h.not_current_of_unstarted h'
    · exact h.not_current_of_queued h'
  have hfr : s.frames (.user t) = [] := h.frames_user (hnc _)
  have hpu : s.pushing (.user t) = none := (h.nowhere hnw).1
  -- off the run queue of `x`, the thread was on none
  have hoff : ∀ z, z ≠ x → .user t ∉ s.runqueue z := by
    intro z hz hmem
    obtain ⟨hqd, hcpu⟩ := hq.runqueue_mem z _ hmem
    rcases hst with hu | ⟨-, hx⟩
    · rw [hu] at hqd
      cases hqd
    · exact hz (hcpu ▸ hx)
  -- a thread that is waking, queued or running is another one
  have hne_of : ∀ t', s.status t' = .waking ∨ s.status t' = .running → t' ≠ .user t := by
    rintro t' ht' rfl
    rcases hst with hu | ⟨hqd, -⟩ <;> rcases ht' with h' | h' <;> simp_all
  refine ⟨⟨?_, ?_, ?_, ?_, ?_, ?_, ?_, ?_, ?_⟩, ⟨h.positions.idle_pc, ?_, ?_⟩, ⟨?_, ?_, ?_⟩⟩
  · intro z t' ht'
    obtain ⟨hmem, hzx⟩ := mem_update_erase (hq.nodup x) ht'
    have hne : t' ≠ .user t := by
      rcases eq_or_ne z x with rfl | hz
      · exact hzx rfl
      · rintro rfl
        exact hoff z hz hmem
    simpa [Function.update_of_ne hne] using hq.runqueue_mem z t' hmem
  · intro t' ht'
    have hne : t' ≠ .user t := by
      rintro rfl
      simp at ht'
    simp only [startPush_status, Function.update_of_ne hne] at ht'
    have hmem := hq.mem_runqueue t' ht'
    simp only [startPush_runqueue, setRunqueue_runqueue, Function.update_of_ne hne]
    rcases eq_or_ne (s.cpu t') x with hx | hx
    · rw [hx, Function.update_self]
      exact (List.mem_erase_of_ne hne).mpr (hx ▸ hmem)
    · rwa [Function.update_of_ne hx]
  · intro z
    rcases eq_or_ne z x with rfl | hz
    · simpa using (hq.nodup z).erase _
    · simpa [Function.update_of_ne hz] using hq.nodup z
  · intro z
    simpa [Function.update_of_ne (hnc z)] using hq.cpu_current z
  · intro t' ht'
    have hne : t' ≠ .user t := by
      rintro rfl
      simp at ht'
    simp only [startPush_status, Function.update_of_ne hne] at ht'
    simpa [Function.update_of_ne hne] using hq.current_of_running t' ht'
  · intro z
    simpa [Function.update_of_ne (hnc z)] using hq.current_not_queued z
  · intro z
    simpa [Function.update_of_ne (hnc z)] using hq.current_not_unstarted z
  · intro z
    simpa [Function.update_apply] using hq.idle_cpu z
  · intro z
    simpa [Function.update_apply] using hq.idle_status z
  · intro t'
    rcases eq_or_ne t' (.user t) with rfl | hne
    · simp only [startPush_pc, startPush_status, Function.update_self, startPush_current,
        startPush_frames, setRunqueue_pc, setRunqueue_status, setRunqueue_current,
        setRunqueue_frames]
      exact (h.positions.pc_ok _).to_waking (hst.imp id And.left) (hnc y)
    · simpa [Function.update_of_ne hne] using h.positions.pc_ok t'
  · intro t'
    rcases eq_or_ne (Thread.user t') (.user t) with he | hne
    · rw [he]
      exact .inl hfr
    · simpa [Function.update_of_ne hne] using h.positions.user_frames t'
  · intro t'
    rcases eq_or_ne t' (.user t) with rfl | hne
    · rw [inFlight_with_cpu, inFlight_startPush_self _ _ _ (by simpa using hpu),
        inFlight_setRunqueue, h.inFlight_eq_zero hnw]
      simp
    · rw [inFlight_with_cpu, inFlight_startPush_ne _ _ _ hne, inFlight_setRunqueue,
        h.wakeups.flight t']
      simp [Function.update_of_ne hne]
  · intro z i t' ht'
    have hne := hne_of t' (.inl (h.waking_of_incoming ht'))
    simpa [Function.update_of_ne hne] using h.wakeups.incoming_cpu z i t' ht'
  · intro g f t' hf ht'
    have hne := hne_of t' (.inl (h.waking_of_local hf ht'))
    have hg : g ≠ .user t := by
      rintro rfl
      simp [hfr] at hf
    simpa [Function.update_of_ne hne, Function.update_of_ne hg] using
      h.wakeups.local_cpu g f t' hf ht'

/-! ### `handle_incoming_wakeups` takes a thread off its local queue -/

omit [Fintype κ] [Fintype τ] in
theorem processFront_self (s : Machine κ τ) (t : Thread κ τ) (f : Frame κ τ)
    (rest : List (Frame κ τ)) (x : κ) (q : List (Thread κ τ)) :
    s.processFront t f rest x t q =
      (.processed t true, (s.setFrames t (⟨f.queuesWithWakes, q, f.cont⟩ :: rest)).setStatus t .running) := by
  simp [processFront]

omit [Fintype κ] [Fintype τ] in
theorem processFront_ne (s : Machine κ τ) {g t : Thread κ τ} (htg : t ≠ g) (f : Frame κ τ)
    (rest : List (Frame κ τ)) (x : κ) (q : List (Thread κ τ)) :
    s.processFront g f rest x t q =
      (.processed t false, ((s.setFrames g (⟨f.queuesWithWakes, q, f.cont⟩ :: rest)).setStatus t
        .queued).setRunqueue x (t :: s.runqueue x)) := by
  simp [processFront, htg]

/-- Taking `t` off the front of a local queue ends one of its wakeups in flight. -/
theorem inFlight_takeFront {s : Machine κ τ} {g t : Thread κ τ} {f : Frame κ τ}
    {rest : List (Frame κ τ)} {q : List (Thread κ τ)} (hfr : s.frames g = f :: rest)
    (hq : f.q = t :: q) (t' : Thread κ τ) :
    (s.setFrames g (⟨f.queuesWithWakes, q, f.cont⟩ :: rest)).inFlight t' +
      (if t' = t then 1 else 0) = s.inFlight t' := by
  have hcount := inFlight_setFrames s g (⟨f.queuesWithWakes, q, f.cont⟩ :: rest) t'
  rw [hfr, framesCount_cons, framesCount_cons, hq] at hcount
  rcases eq_or_ne t' t with rfl | ht
  · simp only [List.count_cons_self] at hcount
    simp only [if_true]
    omega
  · simp only [List.count_cons, beq_iff_eq, Ne.symm ht, if_false, add_zero] at hcount
    simp only [ht, if_false, add_zero]
    omega

omit [DecidableEq τ] [Fintype κ] [Fintype τ] in
theorem mem_update_cons {rq : κ → List (Thread κ τ)} {x y : κ} {t t' : Thread κ τ}
    (ht' : t' ∈ Function.update rq x (t :: rq x) y) : (t' = t ∧ y = x) ∨ t' ∈ rq y := by
  rcases eq_or_ne y x with rfl | hy
  · rw [Function.update_self, List.mem_cons] at ht'
    exact ht'.imp (fun h => ⟨h, rfl⟩) id
  · rw [Function.update_of_ne hy] at ht'
    exact .inr ht'

omit [Fintype κ] [Fintype τ] in
/-- **A thread is queued** on the run queue of its cpu `x`, not being current anywhere. -/
theorem Queues.enqueue {s : Machine κ τ} (hq : s.Queues) {t : Thread κ τ} {x : κ}
    (hst : s.status t ≠ .queued) (hcpu : s.cpu t = x) (hnc : ∀ z, s.current z ≠ t) :
    ((s.setStatus t .queued).setRunqueue x (t :: s.runqueue x)).Queues := by
  have hoff : ∀ y, t ∉ s.runqueue y := fun y ht => hst (hq.runqueue_mem y t ht).1
  refine ⟨?_, ?_, ?_, hq.cpu_current, ?_, ?_, ?_, hq.idle_cpu, ?_⟩
  · intro y t' ht'
    simp only [setRunqueue_runqueue, setStatus_runqueue] at ht'
    rcases eq_or_ne t' t with rfl | hne
    · rcases mem_update_cons ht' with ⟨-, rfl⟩ | ht'
      · simpa using hcpu
      · exact absurd ht' (hoff y)
    · have hmem : t' ∈ s.runqueue y := (mem_update_cons ht').resolve_left (fun h => hne h.1)
      simpa [Function.update_of_ne hne] using hq.runqueue_mem y t' hmem
  · intro t' ht'
    simp only [setRunqueue_runqueue, setStatus_runqueue, setRunqueue_cpu, setStatus_cpu]
    rcases eq_or_ne t' t with rfl | hne
    · simp [hcpu]
    · simp only [setRunqueue_status, setStatus_status, Function.update_of_ne hne] at ht'
      have hmem := hq.mem_runqueue t' ht'
      rcases eq_or_ne (s.cpu t') x with hx | hx
      · rw [hx, Function.update_self]
        exact List.mem_cons_of_mem _ (hx ▸ hmem)
      · rwa [Function.update_of_ne hx]
  · intro y
    rcases eq_or_ne y x with rfl | hy
    · simpa using List.Nodup.cons (hoff y) (hq.nodup y)
    · simpa [Function.update_of_ne hy] using hq.nodup y
  · intro t' ht'
    have hne : t' ≠ t := by
      rintro rfl
      simp at ht'
    simp only [setRunqueue_status, setStatus_status, Function.update_of_ne hne] at ht'
    simpa using hq.current_of_running t' ht'
  · intro y
    simpa [Function.update_of_ne (hnc y)] using hq.current_not_queued y
  · intro y
    simpa [Function.update_of_ne (hnc y)] using hq.current_not_unstarted y
  · intro y
    rcases eq_or_ne (Thread.idle y) t with hy | hy
    · simp [hy]
    · simpa [Function.update_of_ne hy] using hq.idle_status y

/-- **`handle_incoming_wakeups` processes the front of its local queue**: the current thread
itself is made running, any other thread is queued on `x`; its wakeup ends. -/
theorem Inv.processFront {s : Machine κ τ} (h : s.Inv) {g t : Thread κ τ} {x : κ}
    {f : Frame κ τ} {rest : List (Frame κ τ)} {q : List (Thread κ τ)}
    (hx : s.current x = g) (hfr : s.frames g = f :: rest) (hq : f.q = t :: q) :
    (s.processFront g f rest x t q).2.Inv := by
  have hf : f ∈ s.frames g := by simp [hfr]
  have ht : t ∈ f.q := by simp [hq]
  have hw : s.status t = .waking := h.waking_of_local hf ht
  have hcpu : s.cpu t = x := (h.wakeups.local_cpu g f t hf ht).trans (h.cpu_of_current hx)
  have hcount := inFlight_takeFront hfr hq
  have hpos := h.positions_replaceFront ⟨f.queuesWithWakes, q, f.cont⟩ hfr rfl
  have hloc := h.local_cpu_replaceFront ⟨f.queuesWithWakes, q, f.cont⟩ hfr
    fun t' ht' => h.wakeups.local_cpu g f t' hf (by simp [hq, ht'])
  -- `t`'s wakeup is over; every other count is as it was
  have hflight : ∀ (b : Status), b ≠ .waking → ∀ t',
      (s.setFrames g (⟨f.queuesWithWakes, q, f.cont⟩ :: rest)).inFlight t' =
        if Function.update s.status t b t' = .waking then 1 else 0 := by
    intro b hb t'
    have hc := hcount t'
    rcases eq_or_ne t' t with rfl | hne
    · rw [h.wakeups.flight, hw] at hc
      simp only [if_true] at hc
      simp only [Function.update_self, hb, if_false]
      omega
    · rw [h.wakeups.flight] at hc
      simpa [hne, Function.update_of_ne hne] using hc
  rcases eq_or_ne t g with rfl | htg
  · -- the current thread, woken before it was switched out
    simp only [processFront_self]
    have hq₁ : (s.setFrames t (⟨f.queuesWithWakes, q, f.cont⟩ :: rest)).Queues :=
      h.queues.congr rfl rfl rfl rfl
    refine ⟨hq₁.setStatus_current hx
      (by decide) (by decide) fun y hy => absurd (hy ▸ hw) (h.idle_not_waking y),
      hpos.setStatus ?_, ⟨fun t' => hflight .running (by decide) t', h.wakeups.incoming_cpu, hloc⟩⟩
    have hok := h.positions.pc_ok t
    rw [hw] at hok
    exact hok.waking_to_running (h.current_cpu hx) (by simp [hfr])
  · -- another thread of this cpu: it goes on the run queue
    have hnc : ∀ z, s.current z ≠ t := by
      intro z hz
      have hzx : z = x := (h.cpu_of_current hz).symm.trans hcpu
      exact htg (hz.symm.trans ((congrArg s.current hzx).trans hx))
    simp only [processFront_ne s htg]
    have hq₁ : (s.setFrames g (⟨f.queuesWithWakes, q, f.cont⟩ :: rest)).Queues :=
      h.queues.congr rfl rfl rfl rfl
    refine ⟨hq₁.enqueue
      (by simp [hw]) hcpu hnc, (hpos.setStatus ?_).congr rfl rfl rfl rfl rfl,
      ⟨fun t' => hflight .queued (by decide) t', h.wakeups.incoming_cpu, hloc⟩⟩
    have hok := h.positions.pc_ok t
    rw [hw] at hok
    exact hok.waking_to_queued (hnc _)

/-! ### `reschedule_from_interrupt` switches threads -/

section switch

omit [Fintype κ] [Fintype τ]

variable (s : Machine κ τ) (x : κ) (p n : Thread κ τ) (rest : List (Frame κ τ))

@[simp] theorem switchThread_cpu : (s.switchThread x p n rest).cpu = s.cpu := by
  unfold switchThread
  split_ifs <;> rfl

@[simp] theorem switchThread_pc : (s.switchThread x p n rest).pc = s.pc := by
  unfold switchThread
  split_ifs <;> rfl

@[simp] theorem switchThread_frames :
    (s.switchThread x p n rest).frames = Function.update s.frames p rest := by
  unfold switchThread
  split_ifs <;> rfl

@[simp] theorem switchThread_current :
    (s.switchThread x p n rest).current = Function.update s.current x n := rfl

@[simp] theorem switchThread_incomingWakeups :
    (s.switchThread x p n rest).incomingWakeups = s.incomingWakeups := by
  unfold switchThread
  split_ifs <;> rfl

@[simp] theorem switchThread_pushing : (s.switchThread x p n rest).pushing = s.pushing := by
  unfold switchThread
  split_ifs <;> rfl

theorem switchThread_status_next : (s.switchThread x p n rest).status n = .running := by
  unfold switchThread
  split_ifs <;> simp

/-- The thread switched from is requeued if it still runs, and keeps its status otherwise. -/
theorem switchThread_status_prev (hpn : p ≠ n) :
    (s.switchThread x p n rest).status p =
      if s.status p = .running then .queued else s.status p := by
  unfold switchThread
  split_ifs <;> simp [Function.update_of_ne hpn]

theorem switchThread_status_other {t : Thread κ τ} (htn : t ≠ n) (htp : t ≠ p) :
    (s.switchThread x p n rest).status t = s.status t := by
  unfold switchThread
  split_ifs <;> simp [Function.update_of_ne htn, Function.update_of_ne htp]

/-- The run queue of `x` loses `n` and gains `p` if `p` still runs; the others stay. -/
theorem switchThread_runqueue :
    (s.switchThread x p n rest).runqueue = Function.update s.runqueue x
      (if s.status p = .running then p :: (s.runqueue x).erase n else (s.runqueue x).erase n) := by
  unfold switchThread
  split_ifs <;> rfl

end switch

theorem inFlight_switchThread {s : Machine κ τ} {x : κ} {p n : Thread κ τ} {f : Frame κ τ}
    {rest : List (Frame κ τ)} (hfr : s.frames p = f :: rest) (hq : f.q = []) (t : Thread κ τ) :
    (s.switchThread x p n rest).inFlight t = s.inFlight t := by
  rw [← inFlight_popFrame hfr hq t]
  simp only [inFlight, switchThread_pushing, switchThread_incomingWakeups, switchThread_frames,
    setFrames_pushing, setFrames_incomingWakeups, setFrames_frames]

/-- **`reschedule_from_interrupt` switches from `p` to the queued thread `n`** of its run queue:
`p` is requeued if it still runs, `n` is taken off the queue and runs. -/
theorem Inv.switchThread {s : Machine κ τ} (h : s.Inv) {x : κ} {p n : Thread κ τ}
    {f : Frame κ τ} {rest : List (Frame κ τ)} (hx : s.current x = p)
    (hfr : s.frames p = f :: rest) (hq : f.q = []) (hn : n ∈ s.runqueue x) :
    (s.switchThread x p n rest).Inv := by
  have hQ := h.queues
  obtain ⟨hnq, hncpu⟩ := hQ.runqueue_mem x n hn
  have hpq : s.status p ≠ .queued := hx ▸ hQ.current_not_queued x
  have hpu : s.status p ≠ .unstarted := hx ▸ hQ.current_not_unstarted x
  have hpn : p ≠ n := fun he => hpq (he ▸ hnq)
  have hpcpu : s.cpu p = x := h.cpu_of_current hx
  have hnc : ∀ z, s.current z ≠ n := h.not_current_of_queued hnq
  have hpoff : ∀ y, p ∉ s.runqueue y := fun y hm => hpq (hQ.runqueue_mem y p hm).1
  -- another cpu's current thread is neither of the two
  have hother : ∀ y, y ≠ x → s.current y ≠ p := fun y hy he => hy ((h.cpu_of_current he).symm.trans hpcpu)
  -- on cpu `x` the current thread changes from `p` to `n`; elsewhere it stays
  have hcur : ∀ t, t ≠ p → t ≠ n →
      ((s.switchThread x p n rest).current ((s.switchThread x p n rest).cpu t) = t ↔
        s.current (s.cpu t) = t) := by
    intro t htp htn
    rcases eq_or_ne (s.cpu t) x with hcx | hcx
    · simp only [switchThread_current, switchThread_cpu, hcx, Function.update_self, ← hx]
      exact ⟨fun he => absurd he.symm htn, fun he => absurd (he.symm.trans hx) htp⟩
    · simp [Function.update_of_ne hcx]
  have hmem : ∀ t, t ∈ (s.switchThread x p n rest).runqueue x ↔
      (t = p ∧ s.status p = .running) ∨ (t ≠ n ∧ t ∈ s.runqueue x) := by
    intro t
    rw [switchThread_runqueue, Function.update_self]
    split_ifs with hrun <;> simp [(hQ.nodup x).mem_erase_iff, hrun]
  refine ⟨⟨?_, ?_, ?_, ?_, ?_, ?_, ?_, ?_, ?_⟩, ⟨?_, ?_, ?_⟩, ⟨?_, ?_, ?_⟩⟩
  · -- runqueue_mem
    intro y t ht
    rcases eq_or_ne y x with rfl | hy
    · rcases (hmem t).mp ht with ⟨rfl, hrun⟩ | ⟨htn, ht⟩
      · simp [switchThread_status_prev s y t n rest hpn, hrun, hpcpu]
      · have hold := hQ.runqueue_mem y t ht
        have htp : t ≠ p := fun he => hpq (he ▸ hold.1)
        simpa [switchThread_status_other s y p n rest htn htp] using hold
    · rw [switchThread_runqueue, Function.update_of_ne hy] at ht
      have hold := hQ.runqueue_mem y t ht
      have htn : t ≠ n := fun he => hy (hold.2.symm.trans (he ▸ hncpu))
      have htp : t ≠ p := fun he => hpq (he ▸ hold.1)
      simpa [switchThread_status_other s x p n rest htn htp] using hold
  · -- mem_runqueue
    intro t ht
    rcases eq_or_ne t n with rfl | htn
    · simp [switchThread_status_next] at ht
    rcases eq_or_ne t p with rfl | htp
    · have hrun : s.status t = .running := by
        by_contra hrun
        simp [switchThread_status_prev s x t n rest hpn, hrun, hpq] at ht
      rw [switchThread_cpu, hpcpu, hmem]
      exact .inl ⟨rfl, hrun⟩
    · rw [switchThread_status_other s x p n rest htn htp] at ht
      have hold := hQ.mem_runqueue t ht
      rw [switchThread_cpu]
      rcases eq_or_ne (s.cpu t) x with hcx | hcx
      · rw [hcx, hmem]
        exact .inr ⟨htn, hcx ▸ hold⟩
      · rwa [switchThread_runqueue, Function.update_of_ne hcx]
  · -- nodup
    intro y
    rw [switchThread_runqueue]
    rcases eq_or_ne y x with rfl | hy
    · rw [Function.update_self]
      split_ifs
      · exact List.Nodup.cons (fun hm => hpoff y (List.mem_of_mem_erase hm)) ((hQ.nodup y).erase n)
      · exact (hQ.nodup y).erase n
    · rw [Function.update_of_ne hy]
      exact hQ.nodup y
  · -- cpu_current
    intro y
    rcases eq_or_ne y x with rfl | hy
    · simpa using hncpu
    · simpa [Function.update_of_ne hy] using hQ.cpu_current y
  · -- current_of_running
    intro t ht
    rcases eq_or_ne t n with rfl | htn
    · simp [hncpu]
    rcases eq_or_ne t p with rfl | htp
    · -- `p` does not run on: it is requeued or stopped
      rw [switchThread_status_prev s x t n rest hpn] at ht
      split_ifs at ht with hrun
      exact absurd ht hrun
    · rw [switchThread_status_other s x p n rest htn htp] at ht
      exact (hcur t htp htn).mpr (hQ.current_of_running t ht)
  · -- current_not_queued
    intro y
    rcases eq_or_ne y x with rfl | hy
    · simp [switchThread_status_next]
    · simp only [switchThread_current, Function.update_of_ne hy]
      rw [switchThread_status_other s x p n rest (hnc y) (hother y hy)]
      exact hQ.current_not_queued y
  · -- current_not_unstarted
    intro y
    rcases eq_or_ne y x with rfl | hy
    · simp [switchThread_status_next]
    · simp only [switchThread_current, Function.update_of_ne hy]
      rw [switchThread_status_other s x p n rest (hnc y) (hother y hy)]
      exact hQ.current_not_unstarted y
  · simpa using hQ.idle_cpu
  · -- idle_status
    intro y
    rcases eq_or_ne (Thread.idle y) n with hyn | hyn
    · simp [← hyn, switchThread_status_next]
    rcases eq_or_ne (Thread.idle y) p with hyp | hyp
    · -- an idle thread switched from is requeued: it runs, as it is current
      have hrun : s.status p = .running := hyp ▸ (hQ.idle_status y).resolve_right (hyp ▸ hpq)
      simp [← hyp, switchThread_status_prev s x _ n rest (hyp ▸ hpn), hyp ▸ hrun]
    · simpa [switchThread_status_other s x p n rest hyn hyp] using hQ.idle_status y
  · simpa using h.positions.idle_pc
  · -- pc_ok
    intro t
    rcases eq_or_ne t n with rfl | htn
    · have hold := h.positions.pc_ok t
      rw [hnq] at hold
      rw [switchThread_status_next, switchThread_pc]
      exact hold.queued_to_running
    rcases eq_or_ne t p with rfl | htp
    · have hold := h.positions.pc_ok t
      rw [switchThread_status_prev s x t n rest hpn, switchThread_pc]
      split_ifs with hrun
      · rw [hrun] at hold
        exact hold.running_to_queued
      · exact hold.leave (h.current_cpu hx) (by simp [hfr]) ⟨hpu, hrun, hpq⟩
    · rw [switchThread_status_other s x p n rest htn htp, switchThread_pc, hcur t htp htn]
      simpa [Function.update_of_ne htp] using h.positions.pc_ok t
  · -- user_frames
    intro t
    rcases eq_or_ne (Thread.user t) p with htp | htp
    · rcases h.positions.user_frames t with hnil | ⟨f', hf', -, -⟩
      · rw [htp] at hnil
        simp [hnil] at hfr
      · rw [htp, hfr, List.cons.injEq] at hf'
        exact .inl (by simp [← htp, hf'.2])
    rcases eq_or_ne (Thread.user t) n with htn | htn
    · have hnil := h.frames_user (t := t) (htn ▸ hnc _)
      exact .inl (by simpa [Function.update_of_ne htp] using hnil)
    · rw [hcur _ htp htn]
      simpa [Function.update_of_ne htp] using h.positions.user_frames t
  · -- flight
    intro t
    rw [inFlight_switchThread hfr hq, h.wakeups.flight t]
    rcases eq_or_ne t n with rfl | htn
    · simp [switchThread_status_next, hnq]
    rcases eq_or_ne t p with rfl | htp
    · rw [switchThread_status_prev s x t n rest hpn]
      split_ifs <;> simp_all
    · rw [switchThread_status_other s x p n rest htn htp]
  · simpa using h.wakeups.incoming_cpu
  · -- local_cpu
    intro g f' t hf ht
    simp only [switchThread_cpu]
    rcases eq_or_ne g p with rfl | hg
    · simp only [switchThread_frames, Function.update_self] at hf
      exact h.wakeups.local_cpu g f' t (by simp [hfr, hf]) ht
    · simp only [switchThread_frames, Function.update_of_ne hg] at hf
      exact h.wakeups.local_cpu g f' t hf ht

/-! ### Every step -/

/-- **Every step keeps the invariant.** -/
theorem Inv.exec {s s' : Machine κ τ} (h : s.Inv) {pinned : τ → Option κ}
    {a : SchedAction κ τ} {l : SchedLabel κ τ} (ha : s.exec pinned a = some (l, s')) : s'.Inv := by
  cases a with
  | wake c t =>
      simp only [Machine.exec] at ha
      split_ifs at ha with hw
      · cases ha
        exact h.wakeWaiting hw
      · cases ha
        exact h
  | start c t =>
      simp only [Machine.exec] at ha
      split_ifs at ha with hu
      cases ha
      have hoff : Thread.user t ∉ s.runqueue (s.cpu (.user t)) := fun hm => by
        simpa [hu] using (h.queues.runqueue_mem _ _ hm).1
      have hmove := h.moveWaking (x := s.cpu (.user t)) (y := (pinned t).getD c) (c := c) (.inl hu)
      rwa [setRunqueue_erase_of_not_mem s hoff] at hmove
  | push t =>
      cases hp : s.pushing t with
      | none => simp [Machine.exec, hp] at ha
      | some c =>
          simp only [Machine.exec, hp] at ha
          cases ha
          exact h.pushFront hp
  | setMask x c =>
      simp only [Machine.exec] at ha
      split_ifs at ha
      cases ha
      exact ⟨h.queues.congr rfl rfl rfl rfl, h.positions.congr rfl rfl rfl rfl rfl,
        h.wakeups.congr rfl rfl rfl rfl rfl⟩
  | migrate x t y =>
      simp only [Machine.exec] at ha
      split_ifs at ha with hm
      cases ha
      exact h.moveWaking (.inr (h.queues.runqueue_mem x _ hm.1))
  | prepareWait x =>
      simp only [Machine.exec] at ha
      split_ifs at ha with hg
      cases ha
      obtain ⟨hu, hfr, hpc⟩ := hg
      obtain ⟨t, hx⟩ := exists_user_of_isUser hu
      rw [hx] at hfr hpc ⊢
      have hrun := h.running_of_run hx hpc
      exact h.setStatusPc hx (by decide) (by decide) (by simp [hrun])
        ⟨.inl rfl, h.current_cpu hx, hfr⟩
  | predTrue x =>
      simp only [Machine.exec] at ha
      split_ifs at ha with hg
      cases ha
      obtain ⟨hfr, hpc⟩ := hg
      obtain ⟨t, hx⟩ := h.user_of_pc (by rw [hpc]; decide)
      rw [hx] at hfr hpc ⊢
      have hok := h.positions.pc_ok (.user t)
      rw [hpc] at hok
      exact h.setPc hx (hok.1.imp id .inl)
  | wait x =>
      simp only [Machine.exec] at ha
      split_ifs at ha with hg
      cases ha
      obtain ⟨hfr, hpc⟩ := hg
      obtain ⟨t, hx⟩ := h.user_of_pc (by rw [hpc]; decide)
      rw [hx] at hfr hpc ⊢
      have hok := h.positions.pc_ok (.user t)
      rw [hpc] at hok
      -- the test of the predicate, then `schedule()`
      have h₁ := h.setPc (p := .stopWait) hx (hok.1.imp id .inl)
      exact h₁.beginHandle hx (by simp) fun _ _ => ⟨hfr, by decide⟩
  | stopWait x =>
      simp only [Machine.exec] at ha
      split_ifs at ha with hg hw
      · cases ha
        obtain ⟨hfr, hpc⟩ := hg
        obtain ⟨t, hx⟩ := h.user_of_pc (by rw [hpc]; decide)
        rw [hx] at hfr hpc hw ⊢
        exact h.setStatusPc hx (by decide) (by decide) (by simp [hw]) (.inr (.inl rfl))
      · cases ha
        obtain ⟨hfr, hpc⟩ := hg
        obtain ⟨t, hx⟩ := h.user_of_pc (by rw [hpc]; decide)
        rw [hx] at hfr hpc hw ⊢
        have hok := h.positions.pc_ok (.user t)
        rw [hpc] at hok
        exact h.setPc hx (hok.resolve_left hw)
  | stopLoop x =>
      simp only [Machine.exec] at ha
      split_ifs at ha with hg hw
      · cases ha
        exact h.beginHandle rfl (by simp [hg.2]) fun _ _ => ⟨hg.1, by decide⟩
      · cases ha
        obtain ⟨hfr, hpc⟩ := hg
        obtain ⟨t, hx⟩ := h.user_of_pc (by rw [hpc]; decide)
        rw [hx] at hfr hpc hw ⊢
        have hok := h.positions.pc_ok (.user t)
        rw [hpc] at hok
        exact h.setPc hx (.inr ((hok.resolve_left hw).imp id .inl))
  | yield x =>
      simp only [Machine.exec] at ha
      split_ifs at ha with hg
      cases ha
      exact h.beginHandle rfl (by simp [hg.2.2]) fun _ _ => ⟨hg.2.1, by decide⟩
  | complete x =>
      simp only [Machine.exec] at ha
      split_ifs at ha with hg
      cases ha
      obtain ⟨hu, hfr, hpc⟩ := hg
      obtain ⟨t, hx⟩ := exists_user_of_isUser hu
      rw [hx] at hfr hpc ⊢
      have hrun := h.running_of_run hx hpc
      exact h.setStatusPc hx (by decide) (by decide) (by simp [hrun]) rfl
  | completeLoop x =>
      simp only [Machine.exec] at ha
      split_ifs at ha with hg
      cases ha
      exact h.beginHandle rfl (by simp [hg.2]) fun _ _ => ⟨hg.1, by decide⟩
  | doIdle x =>
      simp only [Machine.exec] at ha
      split_ifs at ha with hg
      cases ha
      exact h.beginHandle hg.1 (by simp [h.positions.idle_pc x]) fun _ he => by cases he
  | idleSchedule x =>
      simp only [Machine.exec] at ha
      split_ifs at ha with hg
      cases ha
      exact h.beginHandle hg.1 (by simp [h.positions.idle_pc x]) fun _ he => by cases he
  | preempt x =>
      simp only [Machine.exec] at ha
      split_ifs at ha with hg
      cases ha
      rcases hg with ⟨hfr, hpc⟩ | ⟨f, rest, hfr, hc⟩
      · refine h.beginHandle rfl ?_ fun _ _ => ⟨hfr, by decide⟩
        rcases hpc with hpc | hpc <;> simp [hpc]
      · refine h.beginHandle rfl (h.pc_ne_prepared (by simp [hfr])) fun t ht => ?_
        -- `do_idle`'s frame is never one of an ordinary thread
        rcases h.positions.user_frames t with hnil | ⟨f', hf', hc', -⟩
        · rw [← ht, hfr] at hnil
          cases hnil
        · rw [← ht, hfr, List.cons.injEq] at hf'
          exact absurd (hf'.1 ▸ hc) hc'
  | process x =>
      cases hfr : s.frames (s.current x) with
      | nil => simp [Machine.exec, hfr] at ha
      | cons f rest =>
          cases hq : f.q with
          | nil => simp [Machine.exec, hfr, hq] at ha
          | cons t q =>
              simp only [Machine.exec, hfr, hq] at ha
              have hs' : s' = (s.processFront (s.current x) f rest x t q).2 := by
                rw [Option.some.inj ha]
              rw [hs']
              exact h.processFront rfl hfr hq
  | copy x i =>
      cases hfr : s.frames (s.current x) with
      | nil => simp [Machine.exec, hfr] at ha
      | cons f rest =>
          simp only [Machine.exec, hfr] at ha
          split_ifs at ha with hg
          cases ha
          exact h.copyAndClear rfl hfr hg.1
  | finish x =>
      cases hfr : s.frames (s.current x) with
      | nil => simp [Machine.exec, hfr] at ha
      | cons f rest =>
          simp only [Machine.exec, hfr] at ha
          split_ifs at ha with hg
          cases ha
          exact h.popFrame hfr hg.1
  | yieldReschedule x =>
      cases hfr : s.frames (s.current x) with
      | nil => simp [Machine.exec, hfr] at ha
      | cons f rest =>
          simp only [Machine.exec, hfr] at ha
          split_ifs at ha with hg
          cases ha
          -- `yield`'s call returns, and `reschedule_from_interrupt` makes the next
          refine (h.popFrame hfr hg.1).beginHandle rfl
            (by simpa using h.pc_ne_prepared (by simp [hfr])) fun t ht => ⟨?_, by decide⟩
          rcases h.positions.user_frames t with hnil | ⟨f', hf', -, -⟩
          · rw [← ht, hfr] at hnil
            cases hnil
          · rw [← ht, hfr, List.cons.injEq] at hf'
            simp [hf'.2]
  | keep x =>
      cases hfr : s.frames (s.current x) with
      | nil => simp [Machine.exec, hfr] at ha
      | cons f rest =>
          simp only [Machine.exec, hfr] at ha
          split_ifs at ha with hg
          cases ha
          exact h.popFrame hfr hg.1
  | switchTo x n =>
      cases hfr : s.frames (s.current x) with
      | nil => simp [Machine.exec, hfr] at ha
      | cons f rest =>
          simp only [Machine.exec, hfr] at ha
          split_ifs at ha with hg
          cases ha
          exact h.switchThread rfl hfr hg.1 hg.2.2.2

end Machine

/-- **The invariant holds in every reachable state of the scheduler.** -/
theorem sched_inv {κ τ : Type*} [DecidableEq κ] [DecidableEq τ] [Fintype κ] [Fintype τ]
    {pinned : τ → Option κ} {s : Machine κ τ} (hs : Reachable (sched pinned) s) : s.Inv := by
  refine Inductive.reachable (I := Machine.Inv) ⟨fun s₀ (h₀ : s₀.Initial) => h₀.inv, ?_⟩ hs
  rintro s l t h ⟨a, ha⟩
  exact h.exec ha

/-! ## Every wakeup is processed once -/

namespace SchedLabel

variable {κ τ : Type*} [DecidableEq κ] [DecidableEq τ]

/-- Whether a step begins a wakeup of `u`: a successful `wake()` of it, or its migration. -/
def begins (u : Thread κ τ) : SchedLabel κ τ → ℕ
  | .woke t | .migrated t => if t = u then 1 else 0
  | _ => 0

/-- Whether a step ends a wakeup of `u`: `handle_incoming_wakeups` takes it off a local queue. -/
def ends (u : Thread κ τ) : SchedLabel κ τ → ℕ
  | .processed t _ => if t = u then 1 else 0
  | _ => 0

end SchedLabel

namespace Machine

variable {κ τ : Type*} [DecidableEq κ] [DecidableEq τ] [Fintype κ] [Fintype τ]

/-- One if `u` is waking. -/
def wakingBit (s : Machine κ τ) (u : Thread κ τ) : ℕ := if s.status u = .waking then 1 else 0

omit [Fintype κ] [Fintype τ] in
/-- A status change of `t` that makes it `waking` begins its one wakeup. -/
theorem wakingBit_enter {s s' : Machine κ τ} {t : Thread κ τ} (hs' : s'.status = Function.update s.status t .waking)
    (ht : s.status t ≠ .waking) (u : Thread κ τ) :
    s'.wakingBit u = s.wakingBit u + if t = u then 1 else 0 := by
  unfold wakingBit
  rw [hs']
  rcases eq_or_ne t u with rfl | hne
  · simp [ht]
  · simp [Function.update_of_ne hne.symm, hne]

omit [Fintype κ] [Fintype τ] in
/-- A status change of a waking `t` to another status ends its wakeup. -/
theorem wakingBit_leave {s s' : Machine κ τ} {t : Thread κ τ} {b : Status}
    (hs' : s'.status = Function.update s.status t b) (ht : s.status t = .waking) (hb : b ≠ .waking)
    (u : Thread κ τ) : s'.wakingBit u + (if t = u then 1 else 0) = s.wakingBit u := by
  unfold wakingBit
  rw [hs']
  rcases eq_or_ne t u with rfl | hne
  · simp [ht, hb]
  · simp [Function.update_of_ne hne.symm, hne]

omit [Fintype κ] [Fintype τ] in
/-- A status change that keeps `t` waking or not waking. -/
theorem wakingBit_stay {s s' : Machine κ τ} {t : Thread κ τ} {b : Status}
    (hs' : s'.status = Function.update s.status t b) (hb : s.status t = .waking ↔ b = .waking)
    (u : Thread κ τ) : s'.wakingBit u = s.wakingBit u := by
  unfold wakingBit
  rw [hs']
  rcases eq_or_ne t u with rfl | hne
  · by_cases hw : b = .waking
    · simp [hw, hb.mpr hw]
    · simp [hw, mt hb.mp hw]
  · simp [Function.update_of_ne hne.symm]

/-- **Each step begins or ends wakeups as its label says**, and only those: a thread's status
enters `waking` only by `wake()`, `start()` or a migration, and leaves it only by
`handle_incoming_wakeups`. -/
theorem Inv.exec_wakingBit {s s' : Machine κ τ} (h : s.Inv) {pinned : τ → Option κ}
    {a : SchedAction κ τ} {l : SchedLabel κ τ} (ha : s.exec pinned a = some (l, s'))
    (u : Thread κ τ) : s'.wakingBit u + l.ends u = s.wakingBit u + l.begins u := by
  cases a with
  | wake c t =>
      simp only [Machine.exec] at ha
      split_ifs at ha with hw
      · cases ha
        simp only [SchedLabel.ends, SchedLabel.begins, add_zero]
        exact wakingBit_enter rfl (by simp [hw]) u
      · cases ha
        rfl
  | start c t =>
      simp only [Machine.exec] at ha
      split_ifs at ha with hu
      cases ha
      simp only [SchedLabel.ends, SchedLabel.begins, add_zero]
      exact wakingBit_enter rfl (by simp [hu]) u
  | push t =>
      cases hp : s.pushing t with
      | none => simp [Machine.exec, hp] at ha
      | some c =>
          simp only [Machine.exec, hp] at ha
          cases ha
          rfl
  | setMask x c =>
      simp only [Machine.exec] at ha
      split_ifs at ha
      cases ha
      rfl
  | migrate x t y =>
      simp only [Machine.exec] at ha
      split_ifs at ha with hm
      cases ha
      simp only [SchedLabel.ends, SchedLabel.begins, add_zero]
      exact wakingBit_enter rfl (by simp [(h.queues.runqueue_mem x _ hm.1).1]) u
  | prepareWait x =>
      simp only [Machine.exec] at ha
      split_ifs at ha with hg
      cases ha
      have hrun := h.running_of_run rfl hg.2.2
      exact wakingBit_stay rfl (by simp [hrun]) u
  | predTrue x | wait x | stopLoop x | yield x | completeLoop x | doIdle x | idleSchedule x
  | preempt x =>
      simp only [Machine.exec] at ha
      split_ifs at ha <;> obtain ⟨rfl, rfl⟩ := Prod.mk.inj (Option.some.inj ha) <;> rfl
  | stopWait x =>
      simp only [Machine.exec] at ha
      split_ifs at ha with hg hw
      · cases ha
        exact wakingBit_stay rfl (by simp [hw]) u
      · cases ha
        rfl
  | complete x =>
      simp only [Machine.exec] at ha
      split_ifs at ha with hg
      cases ha
      have hrun := h.running_of_run rfl hg.2.2
      exact wakingBit_stay rfl (by simp [hrun]) u
  | process x =>
      cases hfr : s.frames (s.current x) with
      | nil => simp [Machine.exec, hfr] at ha
      | cons f rest =>
          cases hq : f.q with
          | nil => simp [Machine.exec, hfr, hq] at ha
          | cons t q =>
              simp only [Machine.exec, hfr, hq] at ha
              have hw : s.status t = .waking :=
                h.waking_of_local (g := s.current x) (f := f) (by simp [hfr]) (by simp [hq])
              rcases eq_or_ne t (s.current x) with htg | htg
              · rw [htg, processFront_self] at ha
                cases ha
                simp only [SchedLabel.ends, SchedLabel.begins, add_zero]
                exact wakingBit_leave rfl (htg ▸ hw) (by decide) u
              · rw [processFront_ne s htg] at ha
                cases ha
                simp only [SchedLabel.ends, SchedLabel.begins, add_zero]
                exact wakingBit_leave rfl hw (by decide) u
  | copy x i | finish x | yieldReschedule x | keep x =>
      cases hfr : s.frames (s.current x) with
      | nil => simp [Machine.exec, hfr] at ha
      | cons f rest =>
          simp only [Machine.exec, hfr] at ha
          split_ifs at ha
          cases ha
          rfl
  | switchTo x n =>
      cases hfr : s.frames (s.current x) with
      | nil => simp [Machine.exec, hfr] at ha
      | cons f rest =>
          simp only [Machine.exec, hfr] at ha
          split_ifs at ha with hg
          cases ha
          -- the thread switched from and the thread switched to are neither of them waking
          have hnq := (h.queues.runqueue_mem x n hg.2.2.2).1
          have hpn : s.current x ≠ n := fun he => h.queues.current_not_queued x (he ▸ hnq)
          simp only [SchedLabel.ends, SchedLabel.begins, add_zero, wakingBit]
          rcases eq_or_ne u n with rfl | hun
          · simp [switchThread_status_next, hnq]
          rcases eq_or_ne u (s.current x) with rfl | hup
          · rw [switchThread_status_prev s x _ n rest hpn]
            by_cases hrun : s.status (s.current x) = .running <;> simp [hrun]
          · rw [switchThread_status_other s x _ n rest hun hup]

/-- The state at boot: every cpu runs its idle thread, every other thread is unstarted with
`_cpu` the cpu `c₀`. -/
def boot (c₀ : κ) : Machine κ τ where
  status t := match t with
    | .idle _ => .running
    | .user _ => .unstarted
  cpu t := match t with
    | .idle x => x
    | .user _ => c₀
  pc _ := .run
  frames _ := []
  current x := .idle x
  runqueue _ := []
  incomingWakeups _ _ := []
  incomingWakeupsMask _ := ∅
  pushing _ := none
  setting := []

omit [DecidableEq κ] [DecidableEq τ] [Fintype κ] [Fintype τ] in
theorem boot_initial (c₀ : κ) : (boot c₀ : Machine κ τ).Initial where
  status_idle _ := rfl
  status_user _ := rfl
  cpu_idle _ := rfl
  pc _ := rfl
  frames _ := rfl
  current _ := rfl
  runqueue _ := rfl
  incomingWakeups _ _ := rfl
  incomingWakeupsMask _ := rfl
  pushing _ := rfl
  setting := rfl

omit [Fintype τ] in
/-- A run of the step function from a reachable state, its labels dropped, ends in a reachable
state. -/
theorem reachable_of_run {pinned : τ → Option κ} {s t : Machine κ τ} {as : List (SchedAction κ τ)}
    (hs : Reachable (sched pinned) s)
    (h : runFrom (fun s a => (s.exec pinned a).map Prod.snd) s as = some t) :
    Reachable (sched pinned) t :=
  reachable_of_runFrom_labelled (S := sched pinned) (f := fun s a => s.exec pinned a)
    (fun _ a _ _ h => ⟨a, h⟩) hs h

/-! ## A run on two cpus

Two cpus and two threads, neither pinned, from the boot state with every thread's `_cpu` at
cpu `0`. -/

/-- `0` and `1` of `Fin 2`, with their bounds. -/
def fin0 : Fin 2 := ⟨0, Nat.zero_lt_two⟩
def fin1 : Fin 2 := ⟨1, Nat.one_lt_two⟩

/-- The state a run of steps from boot leaves, or the boot state if a step of it cannot be
taken. -/
def fromBoot (as : List (SchedAction (Fin 2) (Fin 2))) : Machine (Fin 2) (Fin 2) :=
  (runFrom (fun s a => (s.exec (fun _ => none) a).map Prod.snd) (boot fin0) as).getD (boot fin0)

theorem fromBoot_reachable {as : List (SchedAction (Fin 2) (Fin 2))}
    (h : (runFrom (fun s a => (s.exec (fun _ => none) a).map Prod.snd) (boot fin0) as).isSome) :
    Reachable (sched fun _ : Fin 2 => (none : Option (Fin 2))) (fromBoot as) := by
  obtain ⟨t, ht⟩ := Option.isSome_iff_exists.mp h
  rw [fromBoot, ht, Option.getD_some]
  exact reachable_of_run (.init (boot_initial fin0)) ht

/-- Both threads start on cpu `0` and its idle thread's `handle_incoming_wakeups` queues them;
`load_balance` on cpu `0` then moves thread `1` to cpu `1`, its push still to come. -/
def balanceRun : List (SchedAction (Fin 2) (Fin 2)) :=
  [.start fin0 fin0, .push (.user fin0), .setMask fin0 fin0, .start fin0 fin1, .push (.user fin1),
    .setMask fin0 fin0, .doIdle fin0, .copy fin0 fin0, .process fin0, .process fin0, .finish fin0,
    .migrate fin0 fin1 fin1]

/-- Then thread `1` is pushed to cpu `1`, cpu `0`'s idle thread reschedules to thread `0`, and
thread `0` calls `prepare_wait`. -/
def prepareRun : List (SchedAction (Fin 2) (Fin 2)) :=
  balanceRun ++ [.push (.user fin1), .setMask fin1 fin0, .idleSchedule fin0, .switchTo fin0 (.user fin0),
    .prepareWait fin0]

/-- Then thread `0` waits, and cpu `0` switches to its idle thread, which handles the `wake()` of
thread `0` and switches back to it; `stop_wait`'s compare-exchange fails, thread `0` being
`running` again, and it goes to the loop. -/
def stopWaitRun : List (SchedAction (Fin 2) (Fin 2)) :=
  prepareRun ++ [.wait fin0, .switchTo fin0 (.idle fin0), .wake fin0 (.user fin0), .push (.user fin0),
    .setMask fin0 fin0, .doIdle fin0, .copy fin0 fin0, .process fin0, .finish fin0, .idleSchedule fin0,
    .switchTo fin0 (.user fin0), .stopWait fin0]

/-- Then the loop ends and thread `0` runs its own code. -/
def resumeRun : List (SchedAction (Fin 2) (Fin 2)) := stopWaitRun ++ [.stopLoop fin0]

theorem balanceRun_reachable :
    Reachable (sched fun _ : Fin 2 => (none : Option (Fin 2))) (fromBoot balanceRun) :=
  fromBoot_reachable rfl

theorem prepareRun_reachable :
    Reachable (sched fun _ : Fin 2 => (none : Option (Fin 2))) (fromBoot prepareRun) :=
  fromBoot_reachable rfl

theorem stopWaitRun_reachable :
    Reachable (sched fun _ : Fin 2 => (none : Option (Fin 2))) (fromBoot stopWaitRun) :=
  fromBoot_reachable rfl

theorem resumeRun_reachable :
    Reachable (sched fun _ : Fin 2 => (none : Option (Fin 2))) (fromBoot resumeRun) :=
  fromBoot_reachable rfl

end Machine

/-! ## What the scheduler guarantees -/

section results

open Machine

variable {κ τ : Type*} [DecidableEq κ] [DecidableEq τ] [Fintype κ] [Fintype τ]
  {pinned : τ → Option κ}

/-- **Run queues hold the queued threads.**  In every reachable state, for any number of cpus
and threads and any interleaving of their steps, a thread is on the run queue of `x` exactly
when its status is `queued` and its `_cpu` is `x`, and no run queue holds a thread twice. -/
theorem sched_runqueue_iff_queued {s : Machine κ τ} (hs : Reachable (sched pinned) s) (x : κ) :
    (∀ t, t ∈ s.runqueue x ↔ s.status t = .queued ∧ s.cpu t = x) ∧ (s.runqueue x).Nodup := by
  have h := sched_inv hs
  refine ⟨fun t => ⟨h.queues.runqueue_mem x t, ?_⟩, h.queues.nodup x⟩
  rintro ⟨hq, rfl⟩
  exact h.queues.mem_runqueue t hq

/-- After `balanceRun`: thread `0` is queued on cpu `0`, and thread `1` is on its way to cpu `1`. -/
theorem sched_runqueue_iff_queued_balanced :
    Reachable (sched fun _ : Fin 2 => (none : Option (Fin 2))) (fromBoot balanceRun) ∧
      (fromBoot balanceRun).runqueue 0 = [.user 0] ∧ (fromBoot balanceRun).status (.user 1) = .waking ∧
      ((∀ t, t ∈ (fromBoot balanceRun).runqueue 0 ↔
        (fromBoot balanceRun).status t = .queued ∧ (fromBoot balanceRun).cpu t = 0) ∧
        ((fromBoot balanceRun).runqueue 0).Nodup) :=
  ⟨balanceRun_reachable, rfl, rfl, sched_runqueue_iff_queued balanceRun_reachable 0⟩

/-- **`reschedule_from_interrupt` never fails its assertions**, in every reachable state: the
current thread `p` of a cpu is not `queued` (`assert(p_status != queued)`); when `p` no longer
runs, the run queue is not empty, so `runqueue.begin()` names a thread (the idle thread, if no
other); and every thread on the run queue is `queued` and not `p` (`assert(n->_status ==
queued)`, `assert(n != p)`, and `load_balance`'s `assert(mig._status == queued)`). -/
theorem sched_reschedule_asserts {s : Machine κ τ} (hs : Reachable (sched pinned) s) (x : κ) :
    s.status (s.current x) ≠ .queued ∧
      (s.status (s.current x) ≠ .running → s.runqueue x ≠ []) ∧
      ∀ n ∈ s.runqueue x, s.status n = .queued ∧ n ≠ s.current x := by
  have h := sched_inv hs
  refine ⟨h.queues.current_not_queued x, ?_, ?_⟩
  · intro hnr hnil
    -- the idle thread is not current, as it would run; so it is queued here
    rcases h.idle_on_cpu x with hidle | hidle
    · exact hnr (hidle ▸ h.idle_of_current x hidle)
    · simp [hnil] at hidle
  · intro n hn
    have hnq := (h.queues.runqueue_mem x n hn).1
    exact ⟨hnq, fun he => h.queues.current_not_queued x (he ▸ hnq)⟩

/-- After `prepareRun`: the current thread of cpu `0` is waiting, not running, and the run queue
holds cpu `0`'s idle thread, which the switch requeued. -/
theorem sched_reschedule_asserts_prepared :
    Reachable (sched fun _ : Fin 2 => (none : Option (Fin 2))) (fromBoot prepareRun) ∧
      (fromBoot prepareRun).current 0 = .user 0 ∧ (fromBoot prepareRun).status (.user 0) = .waiting ∧
      ((fromBoot prepareRun).status ((fromBoot prepareRun).current 0) ≠ .queued ∧
        ((fromBoot prepareRun).status ((fromBoot prepareRun).current 0) ≠ .running →
          (fromBoot prepareRun).runqueue 0 ≠ []) ∧
        ∀ n ∈ (fromBoot prepareRun).runqueue 0,
          (fromBoot prepareRun).status n = .queued ∧ n ≠ (fromBoot prepareRun).current 0) :=
  ⟨prepareRun_reachable, rfl, rfl, sched_reschedule_asserts prepareRun_reachable 0⟩

/-- **`prepare_wait` and `stop_wait` never fail their assertions**, in every reachable state: a
current thread in its own code runs (`prepare_wait`'s `assert(_status == running)`), and one
that leaves `stop_wait`'s loop, its status no longer `waking`, runs (`stop_wait`'s
`assert(_status == running)`). -/
theorem sched_wait_asserts {s : Machine κ τ} (hs : Reachable (sched pinned) s) (x : κ) :
    (s.pc (s.current x) = .run → s.status (s.current x) = .running) ∧
      (s.pc (s.current x) = .stopLoop → s.status (s.current x) ≠ .waking →
        s.status (s.current x) = .running) := by
  have h := sched_inv hs
  refine ⟨h.running_of_run rfl, fun hpc hw => ?_⟩
  have hok := h.positions.pc_ok (s.current x)
  rw [hpc] at hok
  rcases hok with hwk | hr | hq
  · exact absurd hwk hw
  · exact hr
  · exact absurd hq (h.queues.current_not_queued x)

/-- After `stopWaitRun` thread `0` is in `stop_wait`'s loop, and after `resumeRun` it runs its own
code. -/
theorem sched_wait_asserts_stopWait :
    Reachable (sched fun _ : Fin 2 => (none : Option (Fin 2))) (fromBoot stopWaitRun) ∧
      Reachable (sched fun _ : Fin 2 => (none : Option (Fin 2))) (fromBoot resumeRun) ∧
      (fromBoot stopWaitRun).pc ((fromBoot stopWaitRun).current 0) = .stopLoop ∧
      (fromBoot resumeRun).pc ((fromBoot resumeRun).current 0) = .run ∧
      (((fromBoot stopWaitRun).pc ((fromBoot stopWaitRun).current 0) = .stopLoop →
          (fromBoot stopWaitRun).status ((fromBoot stopWaitRun).current 0) ≠ .waking →
          (fromBoot stopWaitRun).status ((fromBoot stopWaitRun).current 0) = .running)) ∧
      ((fromBoot resumeRun).pc ((fromBoot resumeRun).current 0) = .run →
          (fromBoot resumeRun).status ((fromBoot resumeRun).current 0) = .running) :=
  ⟨stopWaitRun_reachable, resumeRun_reachable, rfl, rfl,
    (sched_wait_asserts stopWaitRun_reachable 0).2, (sched_wait_asserts resumeRun_reachable 0).1⟩

/-- **A wakeup is in one place, once.**  In every reachable state a thread stands in the push
slot of a `wake()` or migration, the `incoming_wakeups` queues and the local queues of the
calls of `handle_incoming_wakeups` once in all if it is `waking`, and nowhere otherwise.  What
an `incoming_wakeups` queue of cpu `x` holds is waking and has `_cpu` `x`; what a local queue
holds is waking, of the cpu of the thread that took it, and on no run queue, so the `enqueue`
of `handle_incoming_wakeups` never inserts a thread twice or on another cpu's queue. -/
theorem sched_wakeup_in_flight_once {s : Machine κ τ} (hs : Reachable (sched pinned) s)
    (t : Thread κ τ) :
    s.inFlight t = (if s.status t = .waking then 1 else 0) ∧
      (∀ x i, t ∈ s.incomingWakeups x i → s.status t = .waking ∧ s.cpu t = x) ∧
      ∀ g f, f ∈ s.frames g → t ∈ f.q →
        s.status t = .waking ∧ s.cpu t = s.cpu g ∧ ∀ y, t ∉ s.runqueue y := by
  have h := sched_inv hs
  refine ⟨h.wakeups.flight t, fun x i ht => ⟨h.waking_of_incoming ht, h.wakeups.incoming_cpu x i t ht⟩,
    fun g f hf ht => ⟨h.waking_of_local hf ht, h.wakeups.local_cpu g f t hf ht, fun y hy => ?_⟩⟩
  have hq := (h.queues.runqueue_mem y t hy).1
  rw [h.waking_of_local hf ht] at hq
  cases hq

/-- After `balanceRun` the migration of thread `1` is in flight: its push to cpu `1` is to come. -/
theorem sched_wakeup_in_flight_once_balanced :
    Reachable (sched fun _ : Fin 2 => (none : Option (Fin 2))) (fromBoot balanceRun) ∧
      (fromBoot balanceRun).pushing (.user 1) = some 0 ∧
      ((fromBoot balanceRun).inFlight (.user 1) =
          (if (fromBoot balanceRun).status (.user 1) = .waking then 1 else 0) ∧
        (∀ x i, Thread.user 1 ∈ (fromBoot balanceRun).incomingWakeups x i →
          (fromBoot balanceRun).status (.user 1) = .waking ∧ (fromBoot balanceRun).cpu (.user 1) = x) ∧
        ∀ g f, f ∈ (fromBoot balanceRun).frames g → Thread.user 1 ∈ f.q →
          (fromBoot balanceRun).status (.user 1) = .waking ∧
            (fromBoot balanceRun).cpu (.user 1) = (fromBoot balanceRun).cpu g ∧
            ∀ y, Thread.user 1 ∉ (fromBoot balanceRun).runqueue y) :=
  ⟨balanceRun_reachable, rfl, sched_wakeup_in_flight_once balanceRun_reachable (.user 1)⟩

/-- **Every wakeup is processed exactly once.**  Along every execution from boot, for every
thread `u`, the wakeups of `u` begun (successful `wake()`s, the `wake()` of `start()`, and
migrations by `load_balance`) are the wakeups of `u` that `handle_incoming_wakeups` processed,
plus one exactly when `u` is still `waking` at the end: no wakeup is lost and none is processed
twice. -/
theorem sched_wakes_processed_once {s t : Machine κ τ} {ls : List (SchedLabel κ τ)}
    (hs : s.Initial) (he : Exec (sched pinned) s ls t) (u : Thread κ τ) :
    (ls.map (SchedLabel.begins u)).sum = (ls.map (SchedLabel.ends u)).sum + t.wakingBit u := by
  have hacc := Exec.account (S := sched pinned) (I := Machine.Inv) (fun s => s.wakingBit u)
    (SchedLabel.begins u)
    (SchedLabel.ends u) (fun _ _ _ h ⟨_, ha⟩ => h.exec ha)
    (fun _ _ _ h ⟨_, ha⟩ => h.exec_wakingBit ha u) he hs.inv
  -- at boot no thread is waking
  have h0 : s.wakingBit u = 0 := by
    cases u with
    | idle x => simp [wakingBit, hs.status_idle x]
    | user t => simp [wakingBit, hs.status_user t]
  omega

theorem sched_wakes_processed_once_start :
    (boot () : Machine Unit Unit).Initial ∧
      Exec (sched fun _ : Unit => (none : Option Unit)) (boot ()) [.woke (.user ())]
        { (boot () : Machine Unit Unit).startPush (.user ()) .waking () with
          cpu := Function.update (boot () : Machine Unit Unit).cpu (.user ()) () } ∧
      ([SchedLabel.woke (Thread.user () : Thread Unit Unit)].map (SchedLabel.begins (.user ()))).sum =
        ([SchedLabel.woke (Thread.user () : Thread Unit Unit)].map (SchedLabel.ends (.user ()))).sum +
          ({ (boot () : Machine Unit Unit).startPush (.user ()) .waking () with
            cpu := Function.update (boot () : Machine Unit Unit).cpu (.user ()) () } :
              Machine Unit Unit).wakingBit (.user ()) :=
  have he : Exec (sched fun _ : Unit => (none : Option Unit)) (boot ()) [.woke (.user ())]
      { (boot () : Machine Unit Unit).startPush (.user ()) .waking () with
        cpu := Function.update (boot () : Machine Unit Unit).cpu (.user ()) () } :=
    .cons ⟨.start () (), rfl⟩ (.nil _)
  ⟨boot_initial (), he, sched_wakes_processed_once (boot_initial ()) he (.user ())⟩

end results

end Osv.Sched
