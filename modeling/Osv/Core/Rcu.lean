import Mathlib.Data.List.Basic
import Osv.Lib.Transition
import Osv.Lib.EventLog

/-!
# RCU grace periods

`core/rcu.cc` defers callbacks to one garbage collector thread.  `rcu_defer(f)` appends `f` to
`callbacks` under `mtx`.  `collect_garbage` waits until `callbacks` is non-empty, moves it into
`now`, and calls `await_grace_period`: that increments its `static generation`, copies
`cpu_quiescent_state_threads`, calls `request(generation)` on each copy, and waits until
`check(generation)` holds for all of them; then it runs the callbacks of `now`.  Every cpu,
once its notifier has pushed a `cpu_quiescent_state_thread` onto the vector, runs `work`: wait
until `_generation < _request`, load `r = _request`, store `_generation = r`.  `request` raises
`_request` to `generation` with a compare-exchange loop, and `check` compares `_generation`.
Readers run `rcu_read_lock` sections with preemption disabled, so no other thread runs on their
cpu until the section ends.

The model has one step per shared access of each thread: `Rcu.gcStep` for the collector,
`Rcu.quiescentStep` for the thread of a cpu, which only runs while no reader section is open on
its cpu, and one step each for `rcu_defer`, the cpu notifier and the two ends of a reader
section.  Only the collector requests generations, so the loop of `request` takes effect at one
compare-exchange: `_request` becomes the maximum of itself and `generation`.  Callbacks are
numbered in the order they are deferred.  The log records each deferral with the cpus inside a
reader section at that moment, each load of `_request` by a cpu's thread, the end of each
reader section and each run of a callback; it is ghost state.

**What holds** (`rcu_grace_period`).  When the collector runs a callback `f`, every cpu of the
copy taken when its grace period started has loaded `_request` after `f` was deferred, and
every reader section open on such a cpu when `f` was deferred has ended; `_request` and
`_generation` of every cpu only grow.  The argument: `generation` is fresh at each grace period,
every `_request` and `_generation` is at most the last generation, and a cpu's `_generation`
reaches the new one only through a load of `_request` made after the collector's request, which
came after the callbacks were taken (`Rcu.Inv`).
-/

namespace Osv.Core

open Transition EventLog

/-- Where the garbage collector thread stands: `cqsts` is the copy of
`cpu_quiescent_state_threads`, `now` the callbacks taken out of `callbacks`. -/
inductive GcPc
  | collect
  | start (now : List ℕ)
  | request (now cqsts rest : List ℕ)
  | await (now cqsts : List ℕ)
  | run (cqsts rest : List ℕ)
  deriving DecidableEq, Repr

/-- Where the `cpu_quiescent_state_thread` of a cpu stands in `work`. -/
inductive QsPc
  | wait
  | load
  | store (r : ℕ)
  deriving DecidableEq, Repr

/-- What the log records. -/
inductive RcuEvent
  | deferred (f : ℕ) (readers : List ℕ)
  | quiescent (cpu : ℕ)
  | readerEnd (cpu : ℕ)
  | ran (f : ℕ)
  deriving DecidableEq, Repr

/-- The shared state.  `generation` is the `static` counter of `await_grace_period`; the
per-cpu `request` and `cpuGeneration` are `_request` and `_generation` of the cpu's thread. -/
structure Rcu where
  registered : List ℕ
  request : ℕ → ℕ
  cpuGeneration : ℕ → ℕ
  qs : ℕ → QsPc
  readers : List ℕ
  callbacks : List ℕ
  generation : ℕ
  gc : GcPc
  next : ℕ
  log : List RcuEvent

/-- The labels. -/
inductive RcuOp
  | register (cpu : ℕ)
  | quiescent (cpu : ℕ)
  | readLock (cpu : ℕ)
  | readUnlock (cpu : ℕ)
  | defer
  | gc
  deriving DecidableEq, Repr

namespace Rcu

/-- Boot: no cpu registered, no callback, every counter `0`. -/
def init : Rcu :=
  ⟨[], fun _ => 0, fun _ => 0, fun _ => .wait, [], [], 0, .collect, 0, []⟩

/-- Append an event to the log. -/
def emit (s : Rcu) (e : RcuEvent) : Rcu := { s with log := s.log ++ [e] }

@[simp] theorem emit_log (s : Rcu) (e : RcuEvent) : (s.emit e).log = s.log ++ [e] := rfl
@[simp] theorem emit_request (s : Rcu) (e : RcuEvent) : (s.emit e).request = s.request := rfl
@[simp] theorem emit_cpuGeneration (s : Rcu) (e : RcuEvent) :
    (s.emit e).cpuGeneration = s.cpuGeneration := rfl
@[simp] theorem emit_qs (s : Rcu) (e : RcuEvent) : (s.emit e).qs = s.qs := rfl
@[simp] theorem emit_readers (s : Rcu) (e : RcuEvent) : (s.emit e).readers = s.readers := rfl
@[simp] theorem emit_callbacks (s : Rcu) (e : RcuEvent) : (s.emit e).callbacks = s.callbacks := rfl
@[simp] theorem emit_generation (s : Rcu) (e : RcuEvent) : (s.emit e).generation = s.generation :=
  rfl
@[simp] theorem emit_gc (s : Rcu) (e : RcuEvent) : (s.emit e).gc = s.gc := rfl
@[simp] theorem emit_next (s : Rcu) (e : RcuEvent) : (s.emit e).next = s.next := rfl

/-- `cpu_quiescent_state_thread::request(generation)` on cpu `c`. -/
def requestOn (s : Rcu) (c : ℕ) : Rcu :=
  { s with request := Function.update s.request c (max (s.request c) s.generation) }

/-- `all_at_generation(cqsts, generation)`. -/
def allAtGeneration (s : Rcu) (cqsts : List ℕ) : Bool :=
  cqsts.all fun c => decide (s.generation ≤ s.cpuGeneration c)

/-- One step of the garbage collector thread (`collect_garbage`, `await_grace_period`). -/
def gcStep (s : Rcu) : Option Rcu :=
  match s.gc with
  | .collect =>
      if s.callbacks = [] then none
      else some { s with gc := .start s.callbacks, callbacks := [] }
  | .start now =>
      some { s with gc := .request now s.registered s.registered, generation := s.generation + 1 }
  | .request now cqsts (c :: rest) => some { s.requestOn c with gc := .request now cqsts rest }
  | .request now cqsts [] => some { s with gc := .await now cqsts }
  | .await now cqsts =>
      if s.allAtGeneration cqsts then some { s with gc := .run cqsts now } else none
  | .run cqsts (f :: rest) => some ({ s with gc := .run cqsts rest }.emit (.ran f))
  | .run _ [] => some { s with gc := .collect }

/-- One step of the `cpu_quiescent_state_thread` of a registered cpu `c` (`work`), which the
scheduler runs only while no reader section is open on `c`. -/
def quiescentStep (s : Rcu) (c : ℕ) : Option Rcu :=
  if c ∈ s.registered ∧ c ∉ s.readers then
    match s.qs c with
    | .wait =>
        if s.cpuGeneration c < s.request c then some { s with qs := Function.update s.qs c .load }
        else none
    | .load =>
        some ({ s with qs := Function.update s.qs c (.store (s.request c)) }.emit (.quiescent c))
    | .store r =>
        some { s with qs := Function.update s.qs c .wait,
                      cpuGeneration := Function.update s.cpuGeneration c r }
  else none

/-- A step of the system. -/
def step (s : Rcu) : RcuOp → Option Rcu
  | .register c =>
      -- the notifier of a cpu that comes up pushes its thread
      if c ∈ s.registered then none else some { s with registered := s.registered ++ [c] }
  | .quiescent c => s.quiescentStep c
  | .readLock c => if c ∈ s.readers then none else some { s with readers := c :: s.readers }
  | .readUnlock c =>
      if c ∈ s.readers then some ({ s with readers := s.readers.erase c }.emit (.readerEnd c))
      else none
  | .defer =>
      some ({ s with callbacks := s.callbacks ++ [s.next], next := s.next + 1 }.emit
        (.deferred s.next s.readers))
  | .gc => s.gcStep

end Rcu

/-- RCU from boot. -/
def rcuSystem : System Rcu RcuOp := System.ofFun (· = Rcu.init) Rcu.step

/-! ## What a step does -/

namespace Rcu

variable {s t : Rcu} {c : ℕ}

/-- **The collector's steps.** -/
theorem gcStep_cases (h : s.gcStep = some t) :
    (s.gc = .collect ∧ s.callbacks ≠ [] ∧ t = { s with gc := .start s.callbacks, callbacks := [] }) ∨
      (∃ now, s.gc = .start now ∧
        t = { s with gc := .request now s.registered s.registered, generation := s.generation + 1 }) ∨
      (∃ now cqsts c rest, s.gc = .request now cqsts (c :: rest) ∧
        t = { s.requestOn c with gc := .request now cqsts rest }) ∨
      (∃ now cqsts, s.gc = .request now cqsts [] ∧ t = { s with gc := .await now cqsts }) ∨
      (∃ now cqsts, s.gc = .await now cqsts ∧ s.allAtGeneration cqsts = true ∧
        t = { s with gc := .run cqsts now }) ∨
      (∃ cqsts f rest, s.gc = .run cqsts (f :: rest) ∧
        t = { s with gc := .run cqsts rest }.emit (.ran f)) ∨
      (∃ cqsts, s.gc = .run cqsts [] ∧ t = { s with gc := .collect }) := by
  unfold gcStep at h
  cases hgc : s.gc with
  | collect =>
      rw [hgc] at h
      by_cases hcb : s.callbacks = []
      · simp [hcb] at h
      · rw [if_neg hcb] at h
        exact .inl ⟨rfl, hcb, (Option.some.inj h).symm⟩
  | start now =>
      rw [hgc] at h
      exact .inr (.inl ⟨now, rfl, (Option.some.inj h).symm⟩)
  | request now cqsts rest =>
      rw [hgc] at h
      cases rest with
      | cons c rest => exact .inr (.inr (.inl ⟨now, cqsts, c, rest, rfl, (Option.some.inj h).symm⟩))
      | nil => exact .inr (.inr (.inr (.inl ⟨now, cqsts, rfl, (Option.some.inj h).symm⟩)))
  | await now cqsts =>
      rw [hgc] at h
      dsimp only at h
      by_cases hall : s.allAtGeneration cqsts = true
      · rw [if_pos hall] at h
        exact .inr (.inr (.inr (.inr (.inl ⟨now, cqsts, rfl, hall, (Option.some.inj h).symm⟩))))
      · simp [hall] at h
  | run cqsts rest =>
      rw [hgc] at h
      cases rest with
      | cons f rest =>
          exact .inr (.inr (.inr (.inr (.inr (.inl ⟨cqsts, f, rest, rfl, (Option.some.inj h).symm⟩)))))
      | nil => exact .inr (.inr (.inr (.inr (.inr (.inr ⟨cqsts, rfl, (Option.some.inj h).symm⟩)))))

/-- **The steps of a cpu's thread**, which runs only on a registered cpu with no reader
section open. -/
theorem quiescentStep_cases (h : s.quiescentStep c = some t) :
    c ∈ s.registered ∧ c ∉ s.readers ∧
      ((s.qs c = .wait ∧ s.cpuGeneration c < s.request c ∧
          t = { s with qs := Function.update s.qs c .load }) ∨
        (s.qs c = .load ∧
          t = { s with qs := Function.update s.qs c (.store (s.request c)) }.emit (.quiescent c)) ∨
        (∃ r, s.qs c = .store r ∧
          t = { s with qs := Function.update s.qs c .wait,
                       cpuGeneration := Function.update s.cpuGeneration c r })) := by
  unfold quiescentStep at h
  by_cases hrun : c ∈ s.registered ∧ c ∉ s.readers
  · rw [if_pos hrun] at h
    refine ⟨hrun.1, hrun.2, ?_⟩
    cases hqs : s.qs c with
    | wait =>
        rw [hqs] at h
        by_cases hlt : s.cpuGeneration c < s.request c
        · rw [if_pos hlt] at h
          exact .inl ⟨rfl, hlt, (Option.some.inj h).symm⟩
        · simp [hlt] at h
    | load =>
        rw [hqs] at h
        exact .inr (.inl ⟨rfl, (Option.some.inj h).symm⟩)
    | store r =>
        rw [hqs] at h
        exact .inr (.inr ⟨r, rfl, (Option.some.inj h).symm⟩)
  · simp [hrun] at h

end Rcu

/-! ## The invariant -/

/-- The callbacks the collector has taken out of `callbacks` and not yet run. -/
def GcPc.batch : GcPc → List ℕ
  | .collect => []
  | .start now => now
  | .request now _ _ => now
  | .await now _ => now
  | .run _ rest => rest

namespace Rcu

variable {s t : Rcu} {c : ℕ}

/-- Cpu `c`'s `_generation`, or the value its thread is about to store there, has reached
the collector's `generation`. -/
def ReachedOn (s : Rcu) (c : ℕ) : Prop :=
  s.generation ≤ s.cpuGeneration c ∨ ∃ r, s.qs c = .store r ∧ s.generation ≤ r

/-- Every deferral of callback `f` is followed in the log by a load of `_request` on `c`. -/
def PassedSince (s : Rcu) (f c : ℕ) : Prop :=
  ∀ rs, Follows s.log (.deferred f rs) (.quiescent c)

/-- What the grace period in progress has established: while the collector requests and
waits, a cpu that has reached `generation` has passed a quiescent state since every callback
of the batch was deferred; once it runs them, every cpu of the copy has. -/
def GraceInv (s : Rcu) : GcPc → Prop
  | .request now _ _ => ∀ f ∈ now, ∀ c, s.ReachedOn c → s.PassedSince f c
  | .await now _ => ∀ f ∈ now, ∀ c, s.ReachedOn c → s.PassedSince f c
  | .run cqsts rest => ∀ f ∈ rest, ∀ c ∈ cqsts, s.PassedSince f c
  | _ => True

/-- **The invariant of RCU.** -/
structure Inv (s : Rcu) : Prop where
  gen_le : ∀ c, s.cpuGeneration c ≤ s.request c
  req_le : ∀ c, s.request c ≤ s.generation
  /-- a pending store of `_generation` is between the two -/
  store_le : ∀ c r, s.qs c = .store r → s.cpuGeneration c ≤ r ∧ r ≤ s.request c
  fresh : ∀ f ∈ s.callbacks ++ s.gc.batch, f < s.next
  deferred : ∀ f ∈ s.callbacks ++ s.gc.batch, ∃ rs, RcuEvent.deferred f rs ∈ s.log
  grace : s.GraceInv s.gc
  /-- a reader section open at a deferral and no longer open has ended since -/
  readers : ∀ f rs c, c ∈ rs → c ∉ s.readers → Follows s.log (.deferred f rs) (.readerEnd c)
  /-- a cpu that passed a quiescent state since a deferral ended the sections open then -/
  quiet : ∀ f rs c, c ∈ rs → Follows s.log (.deferred f rs) (.quiescent c) →
    Follows s.log (.deferred f rs) (.readerEnd c)

theorem PassedSince.append {f : ℕ} {e : RcuEvent} (h : s.PassedSince f c)
    (hlog : t.log = s.log ++ [e]) (hne : ∀ rs, e ≠ .deferred f rs) : t.PassedSince f c := by
  intro rs
  rw [hlog]
  exact (h rs).append (Ne.symm (hne rs))

/-- **The frame of the grace period.**  It survives a step that keeps what cpus passed for
the batch, and after which a cpu that has reached `generation` had reached it before or has
passed since the batch was deferred. -/
theorem GraceInv.mono {pc : GcPc} (h : s.GraceInv pc)
    (hlog : ∀ f ∈ pc.batch, ∀ c, s.PassedSince f c → t.PassedSince f c)
    (hcpu : ∀ c, t.ReachedOn c → s.ReachedOn c ∨ ∀ f ∈ pc.batch, t.PassedSince f c) :
    t.GraceInv pc := by
  cases pc with
  | request now cqsts rest =>
      intro f hf c hc
      rcases hcpu c hc with hc' | hpass
      · exact hlog f hf c (h f hf c hc')
      · exact hpass f hf
  | await now cqsts =>
      intro f hf c hc
      rcases hcpu c hc with hc' | hpass
      · exact hlog f hf c (h f hf c hc')
      · exact hpass f hf
  | run cqsts rest => exact fun f hf c hc => hlog f hf c (h f hf c hc)
  | collect => trivial
  | start now => trivial

theorem inv_init : Inv init where
  gen_le _ := Nat.le_refl 0
  req_le _ := Nat.le_refl 0
  store_le _ _ h := by cases h
  fresh _ h := by simp [init, GcPc.batch] at h
  deferred _ h := by simp [init, GcPc.batch] at h
  grace := trivial
  readers _ _ _ _ _ := follows_nil
  quiet _ _ _ _ _ := follows_nil

/-! ### One step keeps the invariant -/

/-- **A cpu's thread.**  The load of `_request` is the quiescent state: it passes every
deferral so far, and it happens with no reader section open on the cpu. -/
theorem Inv.quiescent (h : Inv s) (hstep : s.quiescentStep c = some t) : Inv t := by
  obtain ⟨-, hnr, hcase⟩ := quiescentStep_cases hstep
  rcases hcase with ⟨hqs, -, rfl⟩ | ⟨hqs, rfl⟩ | ⟨r, hqs, rfl⟩
  · -- `wait_until` returns: only the program counter moves
    refine ⟨h.gen_le, h.req_le, fun c' r hr => ?_, h.fresh, h.deferred,
      h.grace.mono (fun _ _ _ h => h) fun c' hc' => .inl ?_, h.readers, h.quiet⟩
    · by_cases hcc : c' = c
      · subst hcc
        simp at hr
      · exact h.store_le c' r (by simpa [Function.update_of_ne hcc] using hr)
    · by_cases hcc : c' = c
      · subst hcc
        rcases hc' with hg | ⟨r, hr, -⟩
        · exact .inl hg
        · simp at hr
      · simpa [ReachedOn, Function.update_of_ne hcc] using hc'
  · -- the load: `c` has passed every deferral in the log
    have hpass : ∀ f rs, Follows (s.log ++ [.quiescent c]) (.deferred f rs) (.quiescent c) :=
      fun _ _ => follows_append_self (by simp)
    refine ⟨h.gen_le, h.req_le, fun c' r hr => ?_, h.fresh,
      fun f hf => (h.deferred f hf).imp fun _ hm => List.mem_append_left _ hm,
      h.grace.mono (fun f _ c' hp => hp.append rfl (by simp)) fun c' hc' => ?_,
      fun f rs c' hc hnot => (h.readers f rs c' hc hnot).append (by simp),
      fun f rs c' hc hq => ?_⟩
    · by_cases hcc : c' = c
      · subst hcc
        simp only [emit_qs, Function.update_self, QsPc.store.injEq] at hr
        subst hr
        exact ⟨h.gen_le c', Nat.le_refl _⟩
      · exact h.store_le c' r (by simpa [Function.update_of_ne hcc] using hr)
    · by_cases hcc : c' = c
      · subst hcc
        exact .inr fun f _ rs => hpass f rs
      · left
        simpa [ReachedOn, Function.update_of_ne hcc] using hc'
    · by_cases hcc : c' = c
      · -- no reader section is open on `c`, so those open at the deferral have ended
        subst hcc
        exact (h.readers f rs c' hc hnr).append (by simp)
      · exact (h.quiet f rs c' hc (hq.of_append (by simpa using hcc))).append (by simp)
  · -- the store: `_generation` takes the value loaded
    obtain ⟨hgr, hrq⟩ := h.store_le c r hqs
    refine ⟨fun c' => ?_, h.req_le, fun c' r' hr' => ?_, h.fresh, h.deferred,
      h.grace.mono (fun _ _ _ h => h) fun c' hc' => .inl ?_, h.readers, h.quiet⟩
    · by_cases hcc : c' = c
      · subst hcc
        simpa using hrq
      · simpa [Function.update_of_ne hcc] using h.gen_le c'
    · by_cases hcc : c' = c
      · subst hcc
        simp at hr'
      · have hr'' : s.qs c' = .store r' := by simpa [Function.update_of_ne hcc] using hr'
        simpa [Function.update_of_ne hcc] using h.store_le c' r' hr''
    · by_cases hcc : c' = c
      · subst hcc
        simp only [ReachedOn, Function.update_self] at hc'
        rcases hc' with hg | ⟨r', hr', -⟩
        · exact .inr ⟨r, hqs, hg⟩
        · cases hr'
      · simpa [ReachedOn, Function.update_of_ne hcc] using hc'

/-- **`rcu_defer`.** -/
theorem Inv.defer (h : Inv s) :
    Inv ({ s with callbacks := s.callbacks ++ [s.next], next := s.next + 1 }.emit
      (.deferred s.next s.readers)) := by
  -- the new deferral is of a callback no other deferral names
  have hne : ∀ f ∈ s.callbacks ++ s.gc.batch, ∀ rs,
      RcuEvent.deferred s.next s.readers ≠ .deferred f rs := fun f hf rs heq => by
    cases heq
    exact Nat.lt_irrefl _ (h.fresh _ hf)
  have hmem : ∀ f, f ∈ (s.callbacks ++ [s.next]) ++ s.gc.batch →
      f ∈ s.callbacks ++ s.gc.batch ∨ f = s.next := fun f hf => by
    simp only [List.append_assoc, List.mem_append, List.mem_singleton] at hf ⊢
    tauto
  refine ⟨h.gen_le, h.req_le, h.store_le, fun f hf => ?_, fun f hf => ?_,
    h.grace.mono (fun f hf c hp => hp.append rfl (hne f (by simp [hf]))) fun c hc => .inl hc,
    fun f rs c hc hnot => ?_, fun f rs c hc hq => ?_⟩
  · rcases hmem f hf with hf | rfl
    · exact Nat.lt_succ_of_lt (h.fresh f hf)
    · exact Nat.lt_succ_self _
  · rcases hmem f hf with hf | rfl
    · exact (h.deferred f hf).imp fun _ hm => List.mem_append_left _ hm
    · exact ⟨s.readers, by simp⟩
  · by_cases hd : RcuEvent.deferred f rs = .deferred s.next s.readers
    · -- the readers of this deferral are open now
      cases hd
      exact absurd hc hnot
    · exact (h.readers f rs c hc hnot).append hd
  · by_cases hd : RcuEvent.deferred f rs = .deferred s.next s.readers
    · -- nothing follows the new deferral yet
      rw [hd] at hq
      exact absurd hq not_follows_append_self
    · exact (h.quiet f rs c hc (hq.of_append (by simp))).append hd

/-- **`rcu_read_lock`**: a new section, open at no earlier deferral. -/
theorem Inv.readLock (h : Inv s) : Inv { s with readers := c :: s.readers } :=
  ⟨h.gen_le, h.req_le, h.store_le, h.fresh, h.deferred,
    h.grace.mono (fun _ _ _ h => h) fun _ hc => .inl hc,
    fun f rs c' hc' hnot => h.readers f rs c' hc' fun hin => hnot (List.mem_cons_of_mem _ hin),
    h.quiet⟩

/-- **`rcu_read_unlock`.** -/
theorem Inv.readUnlock (h : Inv s) (hc : c ∈ s.readers) :
    Inv ({ s with readers := s.readers.erase c }.emit (.readerEnd c)) := by
  refine ⟨h.gen_le, h.req_le, h.store_le, h.fresh,
    fun f hf => (h.deferred f hf).imp fun _ hm => List.mem_append_left _ hm,
    h.grace.mono (fun f _ c' hp => hp.append rfl (by simp)) fun c' hc' => .inl hc',
    fun f rs c' hc' hnot => ?_, fun f rs c' hc' hq => ?_⟩
  · by_cases hcc : c' = c
    · subst hcc
      exact follows_append_self (by simp)
    · have hnot' : c' ∉ s.readers := fun hin => hnot ((List.mem_erase_of_ne hcc).mpr hin)
      exact (h.readers f rs c' hc' hnot').append (by simp)
  · exact (h.quiet f rs c' hc' (hq.of_append (by simp))).append (by simp)

/-- **The swap of `callbacks` into `now`** and the collector's other moves between its
phases keep every field but the grace period's. -/
theorem Inv.setGc (h : Inv s) {pc : GcPc} (hcb : ∀ f, f ∈ [] ++ pc.batch ↔ f ∈ s.callbacks ++ s.gc.batch)
    (hpc : s.GraceInv pc) : Inv { s with gc := pc, callbacks := [] } :=
  ⟨h.gen_le, h.req_le, h.store_le, fun f hf => h.fresh f ((hcb f).mp hf),
    fun f hf => h.deferred f ((hcb f).mp hf), hpc, h.readers, h.quiet⟩

/-- **A collector step.**  A fresh `generation` is above every `_request` and `_generation`, so
no cpu has reached it when the requests start; and the collector runs the batch only once every
cpu of the copy has reached it. -/
theorem Inv.gc (h : Inv s) (hstep : s.gcStep = some t) : Inv t := by
  have hgrace := h.grace
  rcases gcStep_cases hstep with ⟨hgc, -, rfl⟩ | ⟨now, hgc, rfl⟩ | ⟨now, cqsts, c, rest, hgc, rfl⟩ |
      ⟨now, cqsts, hgc, rfl⟩ | ⟨now, cqsts, hgc, hall, rfl⟩ | ⟨cqsts, f, rest, hgc, rfl⟩ |
      ⟨cqsts, hgc, rfl⟩
  · exact h.setGc (fun f => by simp [hgc, GcPc.batch]) trivial
  · -- `++generation`: no cpu has reached it
    have hbatch : s.gc.batch = now := by simp [hgc, GcPc.batch]
    refine ⟨h.gen_le, fun c => Nat.le_succ_of_le (h.req_le c), h.store_le,
      fun f hf => h.fresh f (by rw [hbatch]; simpa [GcPc.batch] using hf),
      fun f hf => h.deferred f (by rw [hbatch]; simpa [GcPc.batch] using hf), ?_, h.readers, h.quiet⟩
    intro f _ c hc
    rcases hc with hg | ⟨r, hr, hg⟩
    · have := h.gen_le c
      have := h.req_le c
      simp only at hg
      omega
    · have := (h.store_le c r hr).2
      have := h.req_le c
      simp only at hg
      omega
  · -- `request` on `c`: `_request` rises to at most `generation`
    rw [hgc] at hgrace
    have hbatch : s.gc.batch = now := by simp [hgc, GcPc.batch]
    refine ⟨fun c' => ?_, fun c' => ?_, fun c' r hr => ?_,
      fun f hf => h.fresh f (by rw [hbatch]; simpa [GcPc.batch, requestOn] using hf),
      fun f hf => h.deferred f (by rw [hbatch]; simpa [GcPc.batch, requestOn] using hf),
      fun f hf c' hc' => hgrace f hf c' hc', h.readers, h.quiet⟩
    · by_cases hcc : c' = c
      · subst hcc
        simp only [requestOn, Function.update_self]
        exact Nat.le_trans (h.gen_le c') (Nat.le_max_left _ _)
      · simpa [requestOn, Function.update_of_ne hcc] using h.gen_le c'
    · by_cases hcc : c' = c
      · subst hcc
        simp only [requestOn, Function.update_self]
        exact Nat.max_le.mpr ⟨h.req_le c', Nat.le_refl _⟩
      · simpa [requestOn, Function.update_of_ne hcc] using h.req_le c'
    · obtain ⟨hgr, hrq⟩ := h.store_le c' r hr
      refine ⟨hgr, ?_⟩
      by_cases hcc : c' = c
      · subst hcc
        simp only [requestOn, Function.update_self]
        exact Nat.le_trans hrq (Nat.le_max_left _ _)
      · simpa [requestOn, Function.update_of_ne hcc] using hrq
  · rw [hgc] at hgrace
    have hbatch : s.gc.batch = now := by simp [hgc, GcPc.batch]
    exact ⟨h.gen_le, h.req_le, h.store_le,
      fun f hf => h.fresh f (by rw [hbatch]; simpa [GcPc.batch] using hf),
      fun f hf => h.deferred f (by rw [hbatch]; simpa [GcPc.batch] using hf), hgrace, h.readers, h.quiet⟩
  · -- every cpu of the copy has reached `generation`: the batch may run
    rw [hgc] at hgrace
    have hbatch : s.gc.batch = now := by simp [hgc, GcPc.batch]
    refine ⟨h.gen_le, h.req_le, h.store_le,
      fun f hf => h.fresh f (by rw [hbatch]; simpa [GcPc.batch] using hf),
      fun f hf => h.deferred f (by rw [hbatch]; simpa [GcPc.batch] using hf),
      fun f hf c hc => hgrace f hf c (.inl ?_), h.readers, h.quiet⟩
    simpa [allAtGeneration] using List.all_eq_true.mp hall c hc
  · -- a callback runs
    rw [hgc] at hgrace
    have hbatch : s.gc.batch = f :: rest := by simp [hgc, GcPc.batch]
    have hsub : ∀ f', f' ∈ s.callbacks ++ rest → f' ∈ s.callbacks ++ s.gc.batch := fun f' hf' => by
      simp only [hbatch, List.mem_append, List.mem_cons] at hf' ⊢
      tauto
    exact ⟨h.gen_le, h.req_le, h.store_le, fun f' hf' => h.fresh f' (hsub f' hf'),
      fun f' hf' => (h.deferred f' (hsub f' hf')).imp fun _ hm => List.mem_append_left _ hm,
      fun f' hf' c hc => (hgrace f' (List.mem_cons_of_mem _ hf') c hc).append rfl (by simp),
      fun f' rs c hc hnot => (h.readers f' rs c hc hnot).append (by simp),
      fun f' rs c hc hq => (h.quiet f' rs c hc (hq.of_append (by simp))).append (by simp)⟩
  · have hbatch : s.gc.batch = [] := by simp [hgc, GcPc.batch]
    exact ⟨h.gen_le, h.req_le, h.store_le,
      fun f hf => h.fresh f (by rw [hbatch]; simpa [GcPc.batch] using hf),
      fun f hf => h.deferred f (by rw [hbatch]; simpa [GcPc.batch] using hf), trivial, h.readers,
      h.quiet⟩

/-- **Every step keeps the invariant.** -/
theorem Inv.step (h : Inv s) {op : RcuOp} (hstep : s.step op = some t) : Inv t := by
  cases op with
  | register c =>
      simp only [Rcu.step] at hstep
      split_ifs at hstep
      cases hstep
      exact ⟨h.gen_le, h.req_le, h.store_le, h.fresh, h.deferred,
        h.grace.mono (fun _ _ _ h => h) fun _ hc => .inl hc, h.readers, h.quiet⟩
  | quiescent c => exact h.quiescent hstep
  | readLock c =>
      simp only [Rcu.step] at hstep
      split_ifs at hstep
      cases hstep
      exact h.readLock
  | readUnlock c =>
      simp only [Rcu.step] at hstep
      split_ifs at hstep with hc
      cases hstep
      exact h.readUnlock hc
  | defer =>
      cases hstep
      exact h.defer
  | gc => exact h.gc hstep

theorem inv_reachable (hs : Reachable rcuSystem s) : Inv s :=
  Inductive.reachable (S := rcuSystem) ⟨fun _ h => h ▸ inv_init, fun _ _ _ h hst => h.step hst⟩ hs

/-- **`_request` and `_generation` never decrease.** -/
theorem Inv.step_mono (h : Inv s) {op : RcuOp} (hstep : s.step op = some t) (c : ℕ) :
    s.request c ≤ t.request c ∧ s.cpuGeneration c ≤ t.cpuGeneration c := by
  cases op with
  | quiescent c' =>
      obtain ⟨-, -, hcase⟩ := quiescentStep_cases hstep
      rcases hcase with ⟨-, -, rfl⟩ | ⟨-, rfl⟩ | ⟨r, hqs, rfl⟩
      · exact ⟨Nat.le_refl _, Nat.le_refl _⟩
      · exact ⟨Nat.le_refl _, Nat.le_refl _⟩
      · refine ⟨Nat.le_refl _, ?_⟩
        by_cases hcc : c = c'
        · subst hcc
          simpa using (h.store_le c r hqs).1
        · simp [Function.update_of_ne hcc]
  | gc =>
      rcases gcStep_cases hstep with ⟨-, -, rfl⟩ | ⟨_, -, rfl⟩ | ⟨_, _, c', _, -, rfl⟩ |
          ⟨_, _, -, rfl⟩ | ⟨_, _, -, -, rfl⟩ | ⟨_, _, _, -, rfl⟩ | ⟨_, -, rfl⟩
      all_goals try exact ⟨Nat.le_refl _, Nat.le_refl _⟩
      -- the request of a cpu raises its `_request` to the maximum
      refine ⟨?_, Nat.le_refl _⟩
      by_cases hcc : c = c'
      · subst hcc
        simp only [requestOn, Function.update_self]
        exact Nat.le_max_left _ _
      · simp [requestOn, Function.update_of_ne hcc]
  | register c' =>
      simp only [Rcu.step] at hstep
      split_ifs at hstep
      cases hstep
      exact ⟨Nat.le_refl _, Nat.le_refl _⟩
  | readLock c' =>
      simp only [Rcu.step] at hstep
      split_ifs at hstep
      cases hstep
      exact ⟨Nat.le_refl _, Nat.le_refl _⟩
  | readUnlock c' =>
      simp only [Rcu.step] at hstep
      split_ifs at hstep
      cases hstep
      exact ⟨Nat.le_refl _, Nat.le_refl _⟩
  | defer =>
      cases hstep
      exact ⟨Nat.le_refl _, Nat.le_refl _⟩

end Rcu

/-- **The RCU grace period.**  In every reachable state, when the collector is about to run a
callback `f` of a batch whose grace period copied the cpus `cqsts`: `f` was deferred, and after
each deferral of `f` the log shows, for every cpu `c` of `cqsts`, a load of `_request` by `c`'s
thread, and the end of the reader section that was open on `c` at the deferral, if one was.
And no step lowers `_request` or `_generation` of any cpu. -/
theorem rcu_grace_period {s : Rcu} (hs : Reachable rcuSystem s) :
    (∀ cqsts f rest, s.gc = .run cqsts (f :: rest) →
      (∃ rs, RcuEvent.deferred f rs ∈ s.log) ∧
      ∀ c ∈ cqsts, ∀ rs, Follows s.log (.deferred f rs) (.quiescent c) ∧
        (c ∈ rs → Follows s.log (.deferred f rs) (.readerEnd c))) ∧
    ∀ op t, Rcu.step s op = some t → ∀ c,
      s.request c ≤ t.request c ∧ s.cpuGeneration c ≤ t.cpuGeneration c := by
  have h := Rcu.inv_reachable hs
  refine ⟨fun cqsts f rest hgc => ?_, fun op t hstep c => h.step_mono hstep c⟩
  have hgrace := h.grace
  rw [hgc] at hgrace
  refine ⟨h.deferred f (by simp [hgc, GcPc.batch]), fun c hc rs => ?_⟩
  have hpass := hgrace f (List.mem_cons_self ..) c hc rs
  exact ⟨hpass, fun hrs => h.quiet f rs c hrs hpass⟩

/-- One cpu registers, a callback is deferred, and the collector requests generation `1`; the
cpu's thread loads and stores it, and the collector is about to run the callback, which the
cpu's load of `_request` followed. -/
theorem rcu_grace_period_one_cpu :
    ∃ s, Reachable rcuSystem s ∧ s.gc = .run [0] [0] ∧
      Follows s.log (.deferred 0 []) (.quiescent 0) := by
  have hrun : runFrom Rcu.step Rcu.init [.register 0, .defer, .gc, .gc, .gc, .gc, .quiescent 0,
      .quiescent 0, .quiescent 0, .gc] = some _ := rfl
  have hs : Reachable rcuSystem _ := reachable_of_runFrom (.init rfl) hrun
  exact ⟨_, hs, rfl, (((rcu_grace_period hs).1 [0] 0 [] rfl).2 0 (List.mem_singleton_self 0) []).1⟩

end Osv.Core
