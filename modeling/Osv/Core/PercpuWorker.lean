import Mathlib.Data.List.Basic
import Osv.Lib.Transition

/-!
# Per-cpu worker items

`core/percpu-worker.cc` runs, on every cpu, one *sheriff* thread (`workman::call_of_duty`)
that invokes the worker items of the `.percpu_workers` section.  `worker_item::signal(cpu)`
stores `_have_work[cpu] = true` in the item and calls `workman::signal(cpu)`, which returns at
once unless `*_ready` holds, and otherwise stores `_duty = true` for `cpu` and wakes
`*_work_sheriff.for_cpu(cpu)`.  The sheriff first stores its `_ready = true`, then loops:
wait until `_duty`, store `_duty = false`, and scan the items, clearing and invoking each one
whose `_have_work` is set for its cpu.  `workman::pcpu_init`, a cpu notifier that each cpu's
load balancer fires, stores `_duty = false`, creates the sheriff into `_work_sheriff` and
starts it.

The model has one step per access to shared state, with the memory sequentially consistent:
`pcpuInit` for the notifier of a cpu, `callOfDuty` for its sheriff, and `signalStep` for a
thread in `worker_item::signal`.  `wait_until` is a step enabled when `_duty` holds.  The log
records when a sheriff is created, when `_have_work` is stored, when a wake goes through an
unset `_work_sheriff`, and when a handler is invoked; it is ghost state.

**What holds** (`signal_answered_of_quiet`).  Once every cpu's sheriff runs, the handshake is
right: a store to `_have_work` is covered by `_duty`, by the sheriff's scan still to come, or
by a signaller on its way to `_duty` (`Covered`), so a run that comes to rest has invoked the
handler after every signal.

**What does not.**  `workman::signal` reads `*_ready`, the flag of the cpu the *caller* runs
on, not of `cpu`.  A caller whose own sheriff has not yet stored `_ready` returns before
`_duty` is stored, and the target's sheriff sleeps with the work pending for good; a caller
whose sheriff is ready wakes the sheriff of a cpu whose `pcpu_init` has not yet stored
`_work_sheriff` (`percpu_worker_signal_lost`).
-/

namespace Osv.Core

open Transition

/-! ## State -/

/-- Where `workman::pcpu_init` on a cpu stands. -/
inductive InitPc
  | clearDuty
  | create
  | start
  | done
  deriving DecidableEq, Repr

/-- Where the sheriff thread of a cpu stands in `workman::call_of_duty`. -/
inductive SheriffPc
  | unstarted
  | markReady
  | waiting
  | clearDuty
  | scan (i : ℕ)
  | clearWork (i : ℕ)
  | invoke (i : ℕ)
  deriving DecidableEq, Repr

/-- The per-cpu variables of `workman` (`_duty`, `_ready`, `_work_sheriff`), with the program
counters of the cpu's `pcpu_init` and of its sheriff; `sheriff = none` while `_work_sheriff`
is unset. -/
structure WorkCpu where
  init : InitPc
  sheriff : Option SheriffPc
  duty : Bool
  ready : Bool
  deriving DecidableEq, Repr

/-- A cpu before its notifier has run. -/
def WorkCpu.boot : WorkCpu := ⟨.clearDuty, none, false, false⟩

/-- A call `item.signal(dest)` made by a thread that runs on `caller`. -/
structure SignalCall where
  caller : ℕ
  dest : ℕ
  item : ℕ
  deriving DecidableEq, Repr

/-- Where a thread in `worker_item::signal` stands. -/
inductive SignalPc
  | storeWork
  | checkReady
  | storeDuty
  | wake
  | done
  deriving DecidableEq, Repr

/-- What the log records. -/
inductive WorkEvent
  | created (cpu : ℕ)
  | signalled (item cpu : ℕ)
  | wokeUnset (cpu : ℕ)
  | handled (item cpu : ℕ)
  deriving DecidableEq, Repr

/-- The shared state: the per-cpu variables, `_have_work` of every item for every cpu, the
signalling threads and the log. -/
structure Workman where
  cpus : ℕ → WorkCpu
  haveWork : ℕ → ℕ → Bool
  signals : List (SignalCall × SignalPc)
  log : List WorkEvent

/-- The labels: a step of the notifier or of the sheriff of a cpu, or of a signalling thread. -/
inductive WorkOp
  | init (cpu : ℕ)
  | sheriff (cpu : ℕ)
  | signal (k : ℕ)
  deriving DecidableEq, Repr

namespace Workman

/-- Before any notifier has run, with the given calls of `signal` still to make. -/
def init (calls : List SignalCall) : Workman :=
  ⟨fun _ => WorkCpu.boot, fun _ _ => false, calls.map fun call => (call, .storeWork), []⟩

/-- Replace the per-cpu variables of `c`. -/
def setCpu (s : Workman) (c : ℕ) (cpu : WorkCpu) : Workman :=
  { s with cpus := Function.update s.cpus c cpu }

/-- Store `_have_work[c]` of item `i`. -/
def setWork (s : Workman) (i c : ℕ) (b : Bool) : Workman :=
  { s with haveWork := Function.update s.haveWork i (Function.update (s.haveWork i) c b) }

/-- Move signalling thread `k`. -/
def setSignal (s : Workman) (k : ℕ) (x : SignalCall × SignalPc) : Workman :=
  { s with signals := s.signals.set k x }

/-- Append an event to the log. -/
def emit (s : Workman) (e : WorkEvent) : Workman :=
  { s with log := s.log ++ [e] }

@[simp] theorem setCpu_cpus (s : Workman) (c : ℕ) (cpu : WorkCpu) :
    (s.setCpu c cpu).cpus = Function.update s.cpus c cpu := rfl
@[simp] theorem setCpu_haveWork (s : Workman) (c : ℕ) (cpu : WorkCpu) :
    (s.setCpu c cpu).haveWork = s.haveWork := rfl
@[simp] theorem setCpu_signals (s : Workman) (c : ℕ) (cpu : WorkCpu) :
    (s.setCpu c cpu).signals = s.signals := rfl
@[simp] theorem setCpu_log (s : Workman) (c : ℕ) (cpu : WorkCpu) :
    (s.setCpu c cpu).log = s.log := rfl
@[simp] theorem setWork_cpus (s : Workman) (i c : ℕ) (b : Bool) :
    (s.setWork i c b).cpus = s.cpus := rfl
@[simp] theorem setWork_haveWork (s : Workman) (i c : ℕ) (b : Bool) :
    (s.setWork i c b).haveWork = Function.update s.haveWork i (Function.update (s.haveWork i) c b) :=
  rfl
@[simp] theorem setWork_signals (s : Workman) (i c : ℕ) (b : Bool) :
    (s.setWork i c b).signals = s.signals := rfl
@[simp] theorem setWork_log (s : Workman) (i c : ℕ) (b : Bool) :
    (s.setWork i c b).log = s.log := rfl
@[simp] theorem setSignal_cpus (s : Workman) (k : ℕ) (x : SignalCall × SignalPc) :
    (s.setSignal k x).cpus = s.cpus := rfl
@[simp] theorem setSignal_haveWork (s : Workman) (k : ℕ) (x : SignalCall × SignalPc) :
    (s.setSignal k x).haveWork = s.haveWork := rfl
@[simp] theorem setSignal_signals (s : Workman) (k : ℕ) (x : SignalCall × SignalPc) :
    (s.setSignal k x).signals = s.signals.set k x := rfl
@[simp] theorem setSignal_log (s : Workman) (k : ℕ) (x : SignalCall × SignalPc) :
    (s.setSignal k x).log = s.log := rfl
@[simp] theorem emit_cpus (s : Workman) (e : WorkEvent) : (s.emit e).cpus = s.cpus := rfl
@[simp] theorem emit_haveWork (s : Workman) (e : WorkEvent) :
    (s.emit e).haveWork = s.haveWork := rfl
@[simp] theorem emit_signals (s : Workman) (e : WorkEvent) :
    (s.emit e).signals = s.signals := rfl
@[simp] theorem emit_log (s : Workman) (e : WorkEvent) : (s.emit e).log = s.log ++ [e] := rfl

/-! ## Steps -/

/-- One step of `workman::pcpu_init` on cpu `c`. -/
def pcpuInit (s : Workman) (c : ℕ) : Option Workman :=
  let cpu := s.cpus c
  match cpu.init with
  | .clearDuty => some (s.setCpu c { cpu with init := .create, duty := false })
  | .create =>
      some ((s.setCpu c { cpu with init := .start, sheriff := some .unstarted }).emit (.created c))
  | .start => some (s.setCpu c { cpu with init := .done, sheriff := some .markReady })
  | .done => none

/-- One step of the sheriff of cpu `c` in `workman::call_of_duty`; the section holds the items
`0, ..., nitems - 1`. -/
def callOfDuty (nitems : ℕ) (s : Workman) (c : ℕ) : Option Workman :=
  let cpu := s.cpus c
  match cpu.sheriff with
  | some .markReady => some (s.setCpu c { cpu with sheriff := some .waiting, ready := true })
  | some .waiting =>
      if cpu.duty then some (s.setCpu c { cpu with sheriff := some .clearDuty }) else none
  | some .clearDuty => some (s.setCpu c { cpu with sheriff := some (.scan 0), duty := false })
  | some (.scan i) =>
      if i < nitems then
        if s.haveWork i c then some (s.setCpu c { cpu with sheriff := some (.clearWork i) })
        else some (s.setCpu c { cpu with sheriff := some (.scan (i + 1)) })
      else some (s.setCpu c { cpu with sheriff := some .waiting })
  | some (.clearWork i) =>
      some ((s.setCpu c { cpu with sheriff := some (.invoke i) }).setWork i c false)
  | some (.invoke i) =>
      some ((s.setCpu c { cpu with sheriff := some (.scan (i + 1)) }).emit (.handled i c))
  | some .unstarted => none
  | none => none

/-- One step of signalling thread `k`: `worker_item::signal` and the `workman::signal` it
calls, which tests the `_ready` of the cpu the thread runs on. -/
def signalStep (s : Workman) (k : ℕ) : Option Workman :=
  match s.signals[k]? with
  | none => none
  | some (call, pc) =>
      match pc with
      | .storeWork =>
          some (((s.setWork call.item call.dest true).emit
            (.signalled call.item call.dest)).setSignal k (call, .checkReady))
      | .checkReady =>
          if (s.cpus call.caller).ready then some (s.setSignal k (call, .storeDuty))
          else some (s.setSignal k (call, .done))
      | .storeDuty =>
          some ((s.setCpu call.dest { s.cpus call.dest with duty := true }).setSignal k
            (call, .wake))
      | .wake =>
          match (s.cpus call.dest).sheriff with
          | none => some ((s.emit (.wokeUnset call.dest)).setSignal k (call, .done))
          | some _ => some (s.setSignal k (call, .done))
      | .done => none

/-- A step of the system with cpus `0, ..., ncpus - 1` and items `0, ..., nitems - 1`. -/
def step (ncpus nitems : ℕ) (s : Workman) : WorkOp → Option Workman
  | .init c => if c < ncpus then s.pcpuInit c else none
  | .sheriff c => if c < ncpus then s.callOfDuty nitems c else none
  | .signal k => s.signalStep k

end Workman

/-- The per-cpu workers from boot, with the calls `calls` of `signal`. -/
def workmanSystem (ncpus nitems : ℕ) (calls : List SignalCall) : System Workman WorkOp :=
  System.ofFun (· = Workman.init calls) (Workman.step ncpus nitems)

/-! ## What a step does

One inversion lemma per kind of thread, with the guards of each branch. -/

namespace Workman

variable {s t : Workman} {nitems c k : ℕ}

/-- **The sheriff's steps.** -/
theorem callOfDuty_cases (h : s.callOfDuty nitems c = some t) :
    ((s.cpus c).sheriff = some .markReady ∧
        t = s.setCpu c { s.cpus c with sheriff := some .waiting, ready := true }) ∨
      ((s.cpus c).sheriff = some .waiting ∧ (s.cpus c).duty = true ∧
        t = s.setCpu c { s.cpus c with sheriff := some .clearDuty }) ∨
      ((s.cpus c).sheriff = some .clearDuty ∧
        t = s.setCpu c { s.cpus c with sheriff := some (.scan 0), duty := false }) ∨
      (∃ i, (s.cpus c).sheriff = some (.scan i) ∧ i < nitems ∧ s.haveWork i c = true ∧
        t = s.setCpu c { s.cpus c with sheriff := some (.clearWork i) }) ∨
      (∃ i, (s.cpus c).sheriff = some (.scan i) ∧ i < nitems ∧ s.haveWork i c = false ∧
        t = s.setCpu c { s.cpus c with sheriff := some (.scan (i + 1)) }) ∨
      (∃ i, (s.cpus c).sheriff = some (.scan i) ∧ nitems ≤ i ∧
        t = s.setCpu c { s.cpus c with sheriff := some .waiting }) ∨
      (∃ i, (s.cpus c).sheriff = some (.clearWork i) ∧
        t = (s.setCpu c { s.cpus c with sheriff := some (.invoke i) }).setWork i c false) ∨
      (∃ i, (s.cpus c).sheriff = some (.invoke i) ∧
        t = (s.setCpu c { s.cpus c with sheriff := some (.scan (i + 1)) }).emit (.handled i c)) := by
  dsimp only [callOfDuty] at h
  cases hpc : (s.cpus c).sheriff with
  | none => simp [hpc] at h
  | some pc =>
      rw [hpc] at h
      cases pc with
      | unstarted => simp at h
      | markReady => exact .inl ⟨rfl, (Option.some.inj h).symm⟩
      | waiting =>
          by_cases hd : (s.cpus c).duty = true
          · rw [if_pos hd] at h
            exact .inr (.inl ⟨rfl, hd, (Option.some.inj h).symm⟩)
          · simp [hd] at h
      | clearDuty => exact .inr (.inr (.inl ⟨rfl, (Option.some.inj h).symm⟩))
      | scan i =>
          by_cases hi : i < nitems
          · cases hw : s.haveWork i c
            · simp only [hi, hw, if_true, Bool.false_eq_true, if_false, Option.some.injEq] at h
              exact .inr (.inr (.inr (.inr (.inl ⟨i, rfl, hi, hw, h.symm⟩))))
            · simp only [hi, hw, if_true, Option.some.injEq] at h
              exact .inr (.inr (.inr (.inl ⟨i, rfl, hi, hw, h.symm⟩)))
          · simp only [hi, if_false, Option.some.injEq] at h
            exact .inr (.inr (.inr (.inr (.inr (.inl ⟨i, rfl, Nat.le_of_not_lt hi, h.symm⟩)))))
      | clearWork i =>
          exact .inr (.inr (.inr (.inr (.inr (.inr (.inl ⟨i, rfl, (Option.some.inj h).symm⟩))))))
      | invoke i =>
          exact .inr (.inr (.inr (.inr (.inr (.inr (.inr ⟨i, rfl, (Option.some.inj h).symm⟩))))))

/-- **A signalling thread's steps.** -/
theorem signalStep_cases (h : s.signalStep k = some t) :
    ∃ call, (s.signals[k]? = some (call, .storeWork) ∧
        t = ((s.setWork call.item call.dest true).emit
          (.signalled call.item call.dest)).setSignal k (call, .checkReady)) ∨
      (s.signals[k]? = some (call, .checkReady) ∧ (s.cpus call.caller).ready = true ∧
        t = s.setSignal k (call, .storeDuty)) ∨
      (s.signals[k]? = some (call, .checkReady) ∧ (s.cpus call.caller).ready = false ∧
        t = s.setSignal k (call, .done)) ∨
      (s.signals[k]? = some (call, .storeDuty) ∧
        t = (s.setCpu call.dest { s.cpus call.dest with duty := true }).setSignal k
          (call, .wake)) ∨
      (s.signals[k]? = some (call, .wake) ∧ (s.cpus call.dest).sheriff = none ∧
        t = (s.emit (.wokeUnset call.dest)).setSignal k (call, .done)) ∨
      (s.signals[k]? = some (call, .wake) ∧ (s.cpus call.dest).sheriff ≠ none ∧
        t = s.setSignal k (call, .done)) := by
  unfold signalStep at h
  cases hk : s.signals[k]? with
  | none => simp [hk] at h
  | some x =>
      obtain ⟨call, pc⟩ := x
      rw [hk] at h
      refine ⟨call, ?_⟩
      cases pc with
      | storeWork => exact .inl ⟨rfl, (Option.some.inj h).symm⟩
      | checkReady =>
          cases hr : (s.cpus call.caller).ready
          · simp only [hr, Bool.false_eq_true, if_false, Option.some.injEq] at h
            exact .inr (.inr (.inl ⟨rfl, rfl, h.symm⟩))
          · simp only [hr, if_true, Option.some.injEq] at h
            exact .inr (.inl ⟨rfl, rfl, h.symm⟩)
      | storeDuty => exact .inr (.inr (.inr (.inl ⟨rfl, (Option.some.inj h).symm⟩)))
      | wake =>
          cases hw : (s.cpus call.dest).sheriff with
          | none =>
              simp only [hw, Option.some.injEq] at h
              exact .inr (.inr (.inr (.inr (.inl ⟨rfl, rfl, h.symm⟩))))
          | some pc =>
              simp only [hw, Option.some.injEq] at h
              exact .inr (.inr (.inr (.inr (.inr ⟨rfl, by simp, h.symm⟩))))
      | done => simp at h

end Workman

/-! ## Once every sheriff runs

From a state where every cpu's sheriff has stored `_ready` (`Booted`), the check of `*_ready`
in `workman::signal` always passes.  A set `_have_work[c]` of item `i` is then `Covered`:
`_duty` of `c` is set, or the sheriff of `c` will still test item `i` before it waits again
(`SheriffPc.Ahead`), or a signalling thread for item `i` and `c` is still to store `_duty`.  The
sheriff's own steps move the scan past an item only when its `_have_work` is clear, and
`_duty` is cleared only by the sheriff, which then scans every item. -/

/-- The items that the sheriff, at `pc`, will test before it next waits. -/
def SheriffPc.Ahead : SheriffPc → ℕ → Prop
  | .clearDuty, _ => True
  | .scan j, i => j ≤ i
  | .clearWork j, i => j ≤ i
  | .invoke j, i => j < i
  | _, _ => False

/-- A sheriff past its start-up, in the loop of `call_of_duty`. -/
def SheriffPc.InLoop : SheriffPc → Prop
  | .unstarted => False
  | .markReady => False
  | _ => True

/-- A cpu whose notifier has finished and whose sheriff has stored `_ready`. -/
def WorkCpu.Running (cpu : WorkCpu) : Prop :=
  cpu.init = .done ∧ cpu.ready = true ∧ ∃ pc, cpu.sheriff = some pc ∧ pc.InLoop

/-- What the cpu itself still does for item `i`: its `_duty` is set, or its sheriff will test
the item. -/
def WorkCpu.Covers (cpu : WorkCpu) (i : ℕ) : Prop :=
  cpu.duty = true ∨ ∃ pc, cpu.sheriff = some pc ∧ pc.Ahead i

theorem WorkCpu.covers_iff {cpu : WorkCpu} {i : ℕ} (pc : SheriffPc) (h : cpu.sheriff = some pc) :
    cpu.Covers i ↔ cpu.duty = true ∨ pc.Ahead i := by
  simp [WorkCpu.Covers, h]

/-- A signalling thread for item `i` and cpu `c` that is still to store `_duty`. -/
def Covers (x : SignalCall × SignalPc) (i c : ℕ) : Prop :=
  x.1.dest = c ∧ x.1.item = i ∧ (x.2 = .checkReady ∨ x.2 = .storeDuty)

/-- The notifier of the cpu has finished and its sheriff takes no step: it is not started, or
it waits with `_duty` clear. -/
def WorkCpu.quiet (cpu : WorkCpu) : Bool :=
  cpu.init == .done &&
    match cpu.sheriff with
    | none => true
    | some .unstarted => true
    | some .waiting => !cpu.duty
    | some _ => false

theorem WorkCpu.init_of_quiet {cpu : WorkCpu} (h : cpu.quiet = true) : cpu.init = .done := by
  simp only [WorkCpu.quiet, Bool.and_eq_true, beq_iff_eq] at h
  exact h.1

/-- A running sheriff that takes no step waits with `_duty` clear. -/
theorem WorkCpu.Running.waiting_of_quiet {cpu : WorkCpu} (h : cpu.Running) (hq : cpu.quiet = true) :
    cpu.sheriff = some .waiting ∧ cpu.duty = false := by
  obtain ⟨-, -, pc, hpc, hloop⟩ := h
  simp only [WorkCpu.quiet, hpc, Bool.and_eq_true] at hq
  cases pc <;> simp_all [SheriffPc.InLoop]

namespace Workman

/-- Item `i` will be tested on `c`. -/
def Covered (s : Workman) (i c : ℕ) : Prop :=
  (s.cpus c).Covers i ∨ ∃ x ∈ s.signals, Covers x i c

/-- A `signalled i c` in the log that no `handled i c` follows. -/
def Unanswered (log : List WorkEvent) (i c : ℕ) : Prop :=
  ∃ pre post, log = pre ++ .signalled i c :: post ∧ .handled i c ∉ post

/-- Every cpu's sheriff runs, every call of `signal` is for cpus and items that exist, no work
is pending and every signal of the log has been answered. -/
structure Booted (ncpus nitems : ℕ) (s : Workman) : Prop where
  running : ∀ c < ncpus, (s.cpus c).Running
  calls : ∀ x ∈ s.signals, x.1.caller < ncpus ∧ x.1.dest < ncpus ∧ x.1.item < nitems
  idle : ∀ i c, s.haveWork i c = false
  answered : ∀ i c, ¬ Unanswered s.log i c

/-- **The handshake invariant.** -/
structure Inv (ncpus nitems : ℕ) (s : Workman) : Prop where
  running : ∀ c < ncpus, (s.cpus c).Running
  calls : ∀ x ∈ s.signals, x.1.caller < ncpus ∧ x.1.dest < ncpus ∧ x.1.item < nitems
  /-- a set `_have_work` is for an item and a cpu that exist, and it is covered -/
  work : ∀ i c, s.haveWork i c = true → c < ncpus ∧ i < nitems ∧ s.Covered i c
  /-- an unanswered signal has its `_have_work` still set, or its handler is being invoked -/
  answered : ∀ i c, Unanswered s.log i c →
    c < ncpus ∧ (s.haveWork i c = true ∨ (s.cpus c).sheriff = some (.invoke i))

/-- No step is enabled: every notifier has finished, every sheriff waits with `_duty` clear
or is not yet started, and every signalling thread has returned. -/
def quiet (ncpus : ℕ) (s : Workman) : Bool :=
  (List.range ncpus).all (fun c => (s.cpus c).quiet) && s.signals.all (fun x => x.2 == .done)

end Workman

/-! ### The log and the signalling threads -/

/-- **What one more event does to the unanswered signals.**  The new event is the signal, or
it is not its answer and the signal was unanswered before. -/
theorem Workman.Unanswered.of_append {log : List WorkEvent} {e : WorkEvent} {i c : ℕ}
    (h : Workman.Unanswered (log ++ [e]) i c) :
    e = .signalled i c ∨ (e ≠ .handled i c ∧ Workman.Unanswered log i c) := by
  obtain ⟨pre, post, heq, hnot⟩ := h
  rcases List.eq_nil_or_concat post with rfl | ⟨post', b, rfl⟩
  · -- nothing follows the signal: it is the new event
    left
    simpa using (List.append_inj' heq rfl).2
  · right
    rw [List.concat_eq_append, ← List.cons_append, ← List.append_assoc] at heq
    obtain ⟨hlog, hb⟩ := List.append_inj' heq rfl
    obtain rfl : e = b := by simpa using hb
    exact ⟨fun he => hnot (by simp [he]), pre, post', hlog, fun hm => hnot (by simp [hm])⟩

/-- An element of a list is still there after one position is overwritten, unless it was the
element at that position. -/
theorem mem_set_or_eq {α : Type*} {l : List α} {k : ℕ} {x y z : α} (hy : y ∈ l)
    (hk : l[k]? = some z) : y ∈ l.set k x ∨ y = z := by
  obtain ⟨j, hj, rfl⟩ := List.mem_iff_getElem.mp hy
  by_cases hjk : j = k
  · subst hjk
    exact .inr (by simpa [hj] using hk)
  · exact .inl (List.mem_iff_getElem.mpr ⟨j, by simpa using hj, List.getElem_set_ne (Ne.symm hjk) _⟩)

namespace Workman

variable {s t : Workman} {ncpus nitems c k i : ℕ}

theorem setWork_haveWork_apply (s : Workman) (j c : ℕ) (b : Bool) (i c' : ℕ) :
    (s.setWork j c b).haveWork i c' = if i = j ∧ c' = c then b else s.haveWork i c' := by
  by_cases hi : i = j
  · subst hi
    by_cases hc : c' = c
    · simp [hc]
    · simp [hc]
  · simp [hi]

theorem mem_signals_of_getElem? {x : SignalCall × SignalPc} (hk : s.signals[k]? = some x) :
    x ∈ s.signals :=
  List.mem_of_getElem? hk

/-! ### What is covered -/

@[simp] theorem covered_setWork (j c' : ℕ) (b : Bool) : (s.setWork j c' b).Covered i c ↔ s.Covered i c :=
  Iff.rfl

@[simp] theorem covered_emit (e : WorkEvent) : (s.emit e).Covered i c ↔ s.Covered i c :=
  Iff.rfl

theorem Covered.setCpu_of_ne {c' : ℕ} {cpu : WorkCpu} (h : s.Covered i c) (hc : c ≠ c') :
    (s.setCpu c' cpu).Covered i c := by
  simpa [Covered, Function.update_of_ne hc] using h

theorem Covered.setCpu {cpu : WorkCpu} (h : s.Covered i c) (hcpu : (s.cpus c).Covers i → cpu.Covers i) :
    (s.setCpu c cpu).Covered i c := by
  rcases h with h | h
  · exact .inl (by simpa using hcpu h)
  · exact .inr (by simpa using h)

/-- Moving signalling thread `k` from `x` to `x'` keeps what `x` covered if `x'` covers it. -/
theorem Covered.setSignal {c' : ℕ} {x x' : SignalCall × SignalPc} (h : s.Covered i c')
    (hk : s.signals[k]? = some x) (hx : Covers x i c' → Covers x' i c') :
    (s.setSignal k x').Covered i c' := by
  rcases h with h | ⟨y, hy, hcov⟩
  · exact .inl (by simpa using h)
  · rcases mem_set_or_eq hy hk with hy' | rfl
    · exact .inr ⟨y, by simpa using hy', hcov⟩
    · exact .inr ⟨x', by simpa using List.mem_set (List.getElem?_eq_some_iff.mp hk).1 x', hx hcov⟩

theorem running_setCpu {cpu : WorkCpu} (h : ∀ c' < ncpus, (s.cpus c').Running) (hcpu : cpu.Running) :
    ∀ c' < ncpus, ((s.setCpu c cpu).cpus c').Running := by
  intro c' hc'
  by_cases hcc : c' = c
  · subst hcc
    simpa using hcpu
  · simpa [Function.update_of_ne hcc] using h c' hc'

theorem calls_setSignal {x : SignalCall × SignalPc} {pc : SignalPc}
    (h : ∀ y ∈ s.signals, y.1.caller < ncpus ∧ y.1.dest < ncpus ∧ y.1.item < nitems)
    (hk : s.signals[k]? = some x) :
    ∀ y ∈ (s.setSignal k (x.1, pc)).signals,
      y.1.caller < ncpus ∧ y.1.dest < ncpus ∧ y.1.item < nitems := by
  intro y hy
  rcases List.mem_or_eq_of_mem_set hy with hy | rfl
  · exact h y hy
  · exact h x (mem_signals_of_getElem? hk)

/-! ### One step keeps the invariant -/

theorem inv_booted (h : Booted ncpus nitems s) : Inv ncpus nitems s where
  running := h.running
  calls := h.calls
  work i c hb := by simp [h.idle i c] at hb
  answered i c hu := absurd hu (h.answered i c)

/-- **A sheriff step that changes only its own cpu's variables** keeps the invariant when the
new variables cover what the old ones covered and no handler was being invoked. -/
theorem Inv.setCpu (h : Inv ncpus nitems s) {cpu : WorkCpu} (hrun : cpu.Running)
    (hcov : ∀ i, s.haveWork i c = true → (s.cpus c).Covers i → cpu.Covers i)
    (hinv : ∀ i, (s.cpus c).sheriff ≠ some (.invoke i)) : Inv ncpus nitems (s.setCpu c cpu) where
  running := running_setCpu h.running hrun
  calls := by simpa using h.calls
  work i c' hb := by
    obtain ⟨hc', hi, hcv⟩ := h.work i c' hb
    refine ⟨hc', hi, ?_⟩
    by_cases hcc : c' = c
    · subst hcc
      exact hcv.setCpu (hcov i hb)
    · exact hcv.setCpu_of_ne hcc
  answered i c' hu := by
    obtain ⟨hc', hb | hs⟩ := h.answered i c' hu
    · exact ⟨hc', .inl hb⟩
    · by_cases hcc : c' = c
      · subst hcc
        exact absurd hs (hinv i)
      · exact ⟨hc', .inr (by simpa [Function.update_of_ne hcc] using hs)⟩

/-- **`clear_work`**: the sheriff clears `_have_work[c]` of item `j` and goes on to invoke it. -/
theorem Inv.clearWork (h : Inv ncpus nitems s) {j : ℕ} (hs : (s.cpus c).sheriff = some (.clearWork j))
    (hrun : (s.cpus c).Running) :
    Inv ncpus nitems ((s.setCpu c { s.cpus c with sheriff := some (.invoke j) }).setWork j c false) where
  running := running_setCpu h.running ⟨hrun.1, hrun.2.1, _, rfl, trivial⟩
  calls := by simpa using h.calls
  work i c' hb := by
    rw [setWork_haveWork_apply] at hb
    have hold : s.haveWork i c' = true ∧ ¬ (i = j ∧ c' = c) := by
      by_cases hij : i = j ∧ c' = c
      · simp [hij] at hb
      · exact ⟨by simpa [hij] using hb, hij⟩
    obtain ⟨hc', hi, hcv⟩ := h.work i c' hold.1
    refine ⟨hc', hi, ?_⟩
    rw [covered_setWork]
    by_cases hcc : c' = c
    · subst hcc
      -- the scan was at `j ≤ i`, and `i ≠ j` since item `j` is now clear
      refine hcv.setCpu fun hcpu => ?_
      rw [WorkCpu.covers_iff _ hs] at hcpu
      rw [WorkCpu.covers_iff (.invoke j) rfl]
      rcases hcpu with hd | ha
      · exact .inl hd
      · have hij : i ≠ j := fun hij => hold.2 ⟨hij, rfl⟩
        exact .inr (show j < i by simp only [SheriffPc.Ahead] at ha; omega)
    · exact hcv.setCpu_of_ne hcc
  answered i c' hu := by
    obtain ⟨hc', hb | hsh⟩ := h.answered i c' hu
    · by_cases hij : i = j ∧ c' = c
      · obtain ⟨rfl, rfl⟩ := hij
        exact ⟨hc', .inr (by simp)⟩
      · exact ⟨hc', .inl (by rw [setWork_haveWork_apply, if_neg hij]; exact hb)⟩
    · have hcc : c' ≠ c := by
        rintro rfl
        rw [hs] at hsh
        cases hsh
      exact ⟨hc', .inr (by simpa [Function.update_of_ne hcc] using hsh)⟩

/-- **The handler call**: the sheriff invokes item `j`, which answers the signals of `j` and
`c`, and scans on. -/
theorem Inv.invoke (h : Inv ncpus nitems s) {j : ℕ} (hs : (s.cpus c).sheriff = some (.invoke j))
    (hrun : (s.cpus c).Running) :
    Inv ncpus nitems ((s.setCpu c { s.cpus c with sheriff := some (.scan (j + 1)) }).emit
      (.handled j c)) where
  running := running_setCpu h.running ⟨hrun.1, hrun.2.1, _, rfl, trivial⟩
  calls := by simpa using h.calls
  work i c' hb := by
    obtain ⟨hc', hi, hcv⟩ := h.work i c' hb
    refine ⟨hc', hi, ?_⟩
    rw [covered_emit]
    by_cases hcc : c' = c
    · subst hcc
      refine hcv.setCpu fun hcpu => ?_
      rw [WorkCpu.covers_iff _ hs] at hcpu
      rw [WorkCpu.covers_iff (.scan (j + 1)) rfl]
      exact hcpu.imp id fun ha => show j + 1 ≤ i from ha
    · exact hcv.setCpu_of_ne hcc
  answered i c' hu := by
    rcases Unanswered.of_append hu with he | ⟨hne, hu'⟩
    · cases he
    obtain ⟨hc', hb | hsh⟩ := h.answered i c' hu'
    · exact ⟨hc', .inl hb⟩
    · by_cases hcc : c' = c
      · -- the handler being invoked is this one, and it answers the signal
        subst hcc
        rw [hs] at hsh
        cases hsh
        exact absurd rfl hne
      · exact ⟨hc', .inr (by simpa [Function.update_of_ne hcc] using hsh)⟩

/-- **A sheriff step keeps the invariant.** -/
theorem Inv.sheriff (h : Inv ncpus nitems s) (hc : c < ncpus) (hstep : s.callOfDuty nitems c = some t) :
    Inv ncpus nitems t := by
  have hrun := h.running c hc
  obtain ⟨hinit, hready, pc, hpc, hloop⟩ := hrun
  -- a running sheriff keeps running whatever loop position it moves to
  have hrun' : ∀ (q : SheriffPc) (b : Bool), q.InLoop →
      ({ s.cpus c with sheriff := some q, duty := b } : WorkCpu).Running :=
    fun q _ hq => ⟨hinit, hready, q, rfl, hq⟩
  rcases callOfDuty_cases hstep with ⟨hm, rfl⟩ | ⟨hw, hd, rfl⟩ | ⟨hcd, rfl⟩ |
      ⟨j, hsc, hj, hb, rfl⟩ | ⟨j, hsc, hj, hb, rfl⟩ | ⟨j, hsc, hj, rfl⟩ | ⟨j, hsc, rfl⟩ | ⟨j, hsc, rfl⟩
  · -- `markReady` is before the loop
    rw [hpc] at hm
    cases hm
    exact hloop.elim
  · -- `wait_until` returns: every item is ahead
    refine h.setCpu (hrun' .clearDuty _ trivial) (fun i _ _ => ?_) (fun j hj => by simp [hw] at hj)
    exact (WorkCpu.covers_iff .clearDuty rfl).mpr (.inr trivial)
  · -- `_duty = false`, and the scan starts at item `0`
    refine h.setCpu (hrun' (.scan 0) false trivial) (fun i _ _ => ?_)
      (fun j hj => by simp [hcd] at hj)
    exact (WorkCpu.covers_iff (.scan 0) rfl).mpr (.inr (Nat.zero_le i))
  · -- item `j` has work: clear it next
    refine h.setCpu (hrun' (.clearWork j) _ trivial) (fun i _ hcov => ?_)
      (fun j hj => by simp [hsc] at hj)
    rw [WorkCpu.covers_iff _ hsc] at hcov
    exact (WorkCpu.covers_iff (.clearWork j) rfl).mpr hcov
  · -- item `j` has none: a pending item `i` lies past it
    refine h.setCpu (hrun' (.scan (j + 1)) _ trivial) (fun i hbi hcov => ?_)
      (fun j hj => by simp [hsc] at hj)
    rw [WorkCpu.covers_iff _ hsc] at hcov
    have hij : i ≠ j := by
      rintro rfl
      simp [hb] at hbi
    refine (WorkCpu.covers_iff (.scan (j + 1)) rfl).mpr (hcov.imp id fun ha => ?_)
    simp only [SheriffPc.Ahead] at ha ⊢
    omega
  · -- the scan is over: a pending item lies below `nitems`, so `_duty` or a signaller covers it
    refine h.setCpu (hrun' .waiting _ trivial) (fun i hbi hcov => ?_)
      (fun j hj => by simp [hsc] at hj)
    rw [WorkCpu.covers_iff _ hsc] at hcov
    have hi := (h.work i c hbi).2.1
    refine (WorkCpu.covers_iff .waiting rfl).mpr (.inl (hcov.resolve_right fun ha => ?_))
    simp only [SheriffPc.Ahead] at ha
    omega
  · exact h.clearWork hsc ⟨hinit, hready, pc, hpc, hloop⟩
  · exact h.invoke hsc ⟨hinit, hready, pc, hpc, hloop⟩

/-- **A signalling thread's step keeps the invariant.**  Its check of `*_ready` passes, since
every cpu's sheriff runs, and its wake finds `_work_sheriff` set. -/
theorem Inv.signal (h : Inv ncpus nitems s) (hstep : s.signalStep k = some t) :
    Inv ncpus nitems t := by
  obtain ⟨call, hcase⟩ := signalStep_cases hstep
  rcases hcase with ⟨hk, rfl⟩ | ⟨hk, hr, rfl⟩ | ⟨hk, hr, rfl⟩ | ⟨hk, rfl⟩ | ⟨hk, hw, rfl⟩ |
      ⟨hk, hw, rfl⟩
  all_goals obtain ⟨hcaller, hdest, hitem⟩ := h.calls _ (mem_signals_of_getElem? hk)
  · -- `_have_work[dest] = true`: the thread itself now covers it
    refine ⟨by simpa using h.running, calls_setSignal h.calls hk, fun i c' hb => ?_, fun i c' hu => ?_⟩
    · simp only [setSignal_haveWork, emit_haveWork, setWork_haveWork_apply] at hb
      by_cases hic : i = call.item ∧ c' = call.dest
      · obtain ⟨rfl, rfl⟩ := hic
        refine ⟨hdest, hitem, .inr ⟨(call, .checkReady), ?_, rfl, rfl, .inl rfl⟩⟩
        simpa using List.mem_set (List.getElem?_eq_some_iff.mp hk).1 (call, SignalPc.checkReady)
      · obtain ⟨hc', hi, hcv⟩ := h.work i c' (by simpa [hic] using hb)
        exact ⟨hc', hi, hcv.setSignal hk fun ⟨_, _, hpc⟩ => by simp at hpc⟩
    · simp only [setSignal_log, emit_log] at hu
      rcases Unanswered.of_append hu with he | ⟨-, hu'⟩
      · cases he
        exact ⟨hdest, .inl (by simp [setWork_haveWork_apply])⟩
      · obtain ⟨hc', hb | hsh⟩ := h.answered i c' hu'
        · refine ⟨hc', .inl ?_⟩
          simp only [setSignal_haveWork, emit_haveWork, setWork_haveWork_apply]
          split_ifs <;> simp [hb]
        · exact ⟨hc', .inr (by simpa using hsh)⟩
  · -- `*_ready` holds: on to `_duty`
    refine ⟨by simpa using h.running, calls_setSignal h.calls hk, fun i c' hb => ?_,
      fun i c' hu => by simpa using h.answered i c' hu⟩
    obtain ⟨hc', hi, hcv⟩ := h.work i c' hb
    exact ⟨hc', hi, hcv.setSignal hk fun ⟨hd, hi', _⟩ => ⟨hd, hi', .inr rfl⟩⟩
  · -- the caller's sheriff runs, so `*_ready` holds
    rw [(h.running _ hcaller).2.1] at hr
    cases hr
  · -- `_duty = true` for `dest` covers every item there
    have hrun := h.running _ hdest
    refine ⟨?_, calls_setSignal h.calls hk, fun i c' hb => ?_, fun i c' hu => ?_⟩
    · exact running_setCpu h.running ⟨hrun.1, hrun.2.1, hrun.2.2⟩
    · obtain ⟨hc', hi, hcv⟩ := h.work i c' hb
      refine ⟨hc', hi, ?_⟩
      by_cases hcc : c' = call.dest
      · subst hcc
        exact .inl (.inl (by simp))
      · exact (hcv.setCpu_of_ne hcc).setSignal hk fun ⟨hd, _, _⟩ => absurd hd.symm (Ne.symm hcc).symm
    · obtain ⟨hc', hb | hsh⟩ := h.answered i c' hu
      · exact ⟨hc', .inl hb⟩
      · refine ⟨hc', .inr ?_⟩
        by_cases hcc : c' = call.dest
        · subst hcc
          simpa using hsh
        · simpa [Function.update_of_ne hcc] using hsh
  · -- the sheriff of `dest` was created, so the wake finds it
    obtain ⟨-, -, _, hsh, -⟩ := h.running _ hdest
    rw [hsh] at hw
    cases hw
  · refine ⟨by simpa using h.running, calls_setSignal h.calls hk, fun i c' hb => ?_,
      fun i c' hu => by simpa using h.answered i c' hu⟩
    obtain ⟨hc', hi, hcv⟩ := h.work i c' hb
    exact ⟨hc', hi, hcv.setSignal hk fun ⟨_, _, hpc⟩ => by simp at hpc⟩

/-- **Every step keeps the invariant**; no notifier runs again. -/
theorem Inv.step (h : Inv ncpus nitems s) {op : WorkOp} (hstep : step ncpus nitems s op = some t) :
    Inv ncpus nitems t := by
  cases op with
  | init c =>
      simp only [Workman.step] at hstep
      split_ifs at hstep with hc
      simp [pcpuInit, (h.running c hc).1] at hstep
  | sheriff c =>
      simp only [Workman.step] at hstep
      split_ifs at hstep with hc
      exact h.sheriff hc hstep
  | signal k => exact h.signal hstep

/-! ## Runs that come to rest -/

theorem quiet_iff : s.quiet ncpus = true ↔
    (∀ c < ncpus, (s.cpus c).quiet = true) ∧ ∀ x ∈ s.signals, x.2 = .done := by
  simp [quiet]

theorem callOfDuty_eq_none_of_quiet (h : (s.cpus c).quiet = true) : s.callOfDuty nitems c = none := by
  dsimp only [callOfDuty]
  simp only [WorkCpu.quiet, Bool.and_eq_true] at h
  obtain ⟨-, h⟩ := h
  cases hpc : (s.cpus c).sheriff with
  | none => rfl
  | some pc =>
      rw [hpc] at h
      cases pc with
      | unstarted => rfl
      | waiting =>
          simp only [Bool.not_eq_true'] at h
          simp [h]
      | _ => simp at h

/-- **A quiet state takes no step.** -/
theorem step_eq_none_of_quiet (hq : s.quiet ncpus = true) (op : WorkOp) :
    step ncpus nitems s op = none := by
  obtain ⟨hcpus, hsig⟩ := quiet_iff.mp hq
  cases op with
  | init c =>
      simp only [Workman.step]
      split_ifs with hc
      · simp [pcpuInit, WorkCpu.init_of_quiet (hcpus c hc)]
      · rfl
  | sheriff c =>
      simp only [Workman.step]
      split_ifs with hc
      · exact callOfDuty_eq_none_of_quiet (hcpus c hc)
      · rfl
  | signal k =>
      simp only [Workman.step, signalStep]
      cases hk : s.signals[k]? with
      | none => rfl
      | some x =>
          obtain ⟨call, pc⟩ := x
          obtain rfl : pc = .done := hsig _ (mem_signals_of_getElem? hk)
          rfl

/-- **No signal is lost once every sheriff runs.**  From a booted state, a run that comes to
rest has answered every signal made in it: each `signalled i c` of the log is followed by a
`handled i c`, an invocation of the item's handler on `c` that began after the store. -/
theorem signal_answered_of_quiet {calls : List SignalCall} {s₀ : Workman} {ops : List WorkOp}
    (h₀ : Booted ncpus nitems s₀) (hexec : Exec (workmanSystem ncpus nitems calls) s₀ ops s)
    (hq : s.quiet ncpus = true) (i c : ℕ) : ¬ Unanswered s.log i c := by
  intro hu
  have h : Inv ncpus nitems s := hexec.preserves (fun _ _ _ h hst => h.step hst) (inv_booted h₀)
  obtain ⟨hcpus, hsig⟩ := quiet_iff.mp hq
  obtain ⟨hc, hb | hsh⟩ := h.answered i c hu
  · obtain ⟨hw, hd⟩ := WorkCpu.Running.waiting_of_quiet (h.running c hc) (hcpus c hc)
    -- the pending item is covered, but nothing is left to cover it
    obtain ⟨-, -, hcv | ⟨x, hx, -, -, hpc⟩⟩ := h.work i c hb
    · rcases (WorkCpu.covers_iff _ hw).mp hcv with hd' | ha
      · rw [hd] at hd'
        cases hd'
      · exact ha
    · rw [hsig x hx] at hpc
      simp at hpc
  · obtain ⟨hw, -⟩ := WorkCpu.Running.waiting_of_quiet (h.running c hc) (hcpus c hc)
    rw [hw] at hsh
    cases hsh

/-! ## Boot

The boot order the positive result starts from: each cpu in turn runs its notifier to the end
and its sheriff stores `_ready`, before any signal is made. -/

/-- A cpu whose sheriff has stored `_ready` and waits. -/
def WorkCpu.idle : WorkCpu := ⟨.done, some .waiting, false, true⟩

/-- The state after the cpus below `k` have booted. -/
def bootState (calls : List SignalCall) (k : ℕ) : Workman :=
  ⟨fun c => if c < k then WorkCpu.idle else WorkCpu.boot, fun _ _ => false,
    calls.map fun call => (call, .storeWork), (List.range k).map .created⟩

/-- Each cpu in turn: three steps of its notifier, then its sheriff's first. -/
def bootOps (ncpus : ℕ) : List WorkOp :=
  (List.range ncpus).flatMap fun c => [.init c, .init c, .init c, .sheriff c]

theorem bootState_zero (calls : List SignalCall) : bootState calls 0 = init calls := by
  simp [bootState, init]

/-- **Booting cpu `k`.** -/
theorem boot_step (calls : List SignalCall) {k : ℕ} (hk : k < ncpus) :
    runFrom (step ncpus nitems) (bootState calls k) [.init k, .init k, .init k, .sheriff k] =
      some (bootState calls (k + 1)) := by
  have hk0 : (bootState calls k).cpus k = WorkCpu.boot := by simp [bootState]
  simp only [runFrom_cons, runFrom_nil, Workman.step, if_pos hk, pcpuInit, callOfDuty, hk0,
    WorkCpu.boot, setCpu, emit, Function.update_self, Function.update_idem, Option.bind_some]
  congr 1
  simp only [bootState, mk.injEq, List.range_succ, List.map_append, List.map_cons,
    List.map_nil, and_true]
  funext c
  by_cases hc : c = k
  · subst hc
    simp [WorkCpu.idle]
  · have : c < k + 1 ↔ c < k := by omega
    simp [Function.update_of_ne hc, this]

/-- **The boot order runs to the booted state.** -/
theorem boot_run (calls : List SignalCall) :
    ∀ {k : ℕ}, k ≤ ncpus →
      runFrom (step ncpus nitems) (init calls) (bootOps k) = some (bootState calls k) := by
  intro k
  induction k with
  | zero => intro _; simp [bootOps, bootState_zero]
  | succ k ih =>
      intro hk
      rw [bootOps, List.range_succ, List.flatMap_append, runFrom_append, ← bootOps,
        ih (by omega), Option.bind_some, List.flatMap_singleton]
      exact boot_step calls (by omega)

end Workman

/-! ## The lost signals -/

/-- Two cpus and one worker item; a thread on cpu `0` calls `item.signal(1)`. -/
def lostCalls : List SignalCall := [⟨0, 1, 0⟩]

/-- **Two ways to lose a signal.**  Cpu `0` boots and its sheriff stores `_ready`; the signal
to cpu `1` then passes `*_ready` and wakes `_work_sheriff` of cpu `1`, which its `pcpu_init` has
not stored.  Or both cpus create their sheriffs and only cpu `1`'s stores `_ready` before the
signal: `*_ready` of cpu `0` is still clear, `signal` returns before `_duty` is stored, and no
step is left to take, so the handler never runs after `signalled 0 1`. -/
theorem percpu_worker_signal_lost :
    (∃ s, Reachable (workmanSystem 2 1 lostCalls) s ∧ WorkEvent.wokeUnset 1 ∈ s.log) ∧
      ∃ s, Reachable (workmanSystem 2 1 lostCalls) s ∧
        s.log = [.created 0, .created 1, .signalled 0 1] ∧
        ∀ ops t, Exec (workmanSystem 2 1 lostCalls) s ops t → t = s := by
  have hwake : runFrom (Workman.step 2 1) (Workman.init lostCalls)
      [.init 0, .init 0, .init 0, .sheriff 0, .signal 0, .signal 0, .signal 0, .signal 0] =
        some _ := rfl
  have hlost : runFrom (Workman.step 2 1) (Workman.init lostCalls)
      [.init 0, .init 0, .init 0, .init 1, .init 1, .init 1, .sheriff 1, .signal 0, .signal 0,
        .sheriff 0] = some _ := rfl
  refine ⟨⟨_, reachable_of_runFrom (.init rfl) hwake, by decide⟩,
    _, reachable_of_runFrom (.init rfl) hlost, by decide, fun ops t hexec => ?_⟩
  refine hexec.of_disabled fun op t' hst => ?_
  change Workman.step 2 1 _ op = some t' at hst
  rw [Workman.step_eq_none_of_quiet (by decide) op] at hst
  cases hst

end Osv.Core
