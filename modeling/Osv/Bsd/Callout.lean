import Mathlib.Data.Nat.Basic
import Osv.Lib.Transition

/-!
# `callout`

`bsd/porting/callout.cc` runs the callouts of the network stack on one dispatcher thread,
`_callout_thread`.  The callouts are kept in a `std::set` ordered by `(c_to_ns, address)`,
and the set, the callouts' fields and `_have_work` are guarded by `_callout_mutex`.  The
dispatcher takes the first callout, and unless it is due within a millisecond sleeps with the
mutex released until a timer set to its `c_to_ns` fires or `_have_work` is set.  Then, if its
own timer fired and the callout is still in the set, it clears `CALLOUT_PENDING` and runs the
handler with the mutex released.  `callout_reset_on`, `callout_stop` and `callout_drain` are
critical sections under the mutex; `callout_drain` of a pending or running callout waits until
the dispatcher marks it `CALLOUT_COMPLETED`.

The model has one step per critical section and per wake-up of the dispatcher; the handler's
run is the time between its dispatch and its return.  The clock is monotone; `c_mtx` and
`c_rwlock`, taken around the handler, are left out, and so are the fields no step reads.

**What does not hold** (`callout_stop_result_and_early_dispatch`).  `callout_stop` and
`callout_reset_on` return what `_callout_stop_safe_locked(c, 0)` returns, which is `0` on every
path: they report no cancelled scheduling, so the caller in `in.c` that drops a reference when
`callout_stop` returns non-zero never does.  And the dispatcher does not re-read the deadline
when its timer fires: a callout moved later by `callout_reset_on` while the dispatcher waits
for it, behind another callout so that the dispatcher is not woken, runs at its old deadline.
-/

namespace Osv.Bsd

open Transition

variable {γ τ : Type*}

/-- `TMILISECOND` -/
def TMILISECOND : UInt64 := 1000000

/-- `ticks2ns(ticks)`, at `hz = 1000`. -/
def ticks2ns (ticks : UInt64) : UInt64 := ticks * (1000000000 / 1000)

/-- The fields of a `struct callout` the steps read: `c_to_ns`, the flags `CALLOUT_PENDING`,
`CALLOUT_ACTIVE` and `CALLOUT_COMPLETED` of `c_flags`, and `waiter_thread`. -/
structure CalloutState (τ : Type*) where
  toNs : UInt64
  pending : Bool
  active : Bool
  completed : Bool
  waiter : Option τ
deriving DecidableEq

/-- `callout_compare`: by `c_to_ns`, then by address. -/
def calloutLt [LinearOrder γ] (toNs : γ → UInt64) (a b : γ) : Prop :=
  if toNs a = toNs b then a < b else toNs a < toNs b

instance [LinearOrder γ] (toNs : γ → UInt64) (a b : γ) : Decidable (calloutLt toNs a b) :=
  inferInstanceAs (Decidable (if toNs a = toNs b then a < b else toNs a < toNs b))

/-- `_callouts.insert(c)`: before the first callout it compares less than. -/
def addCallout [LinearOrder γ] (toNs : γ → UInt64) (c : γ) : List γ → List γ
  | [] => [c]
  | e :: rest => if calloutLt toNs c e then c :: e :: rest else e :: addCallout toNs c rest

/-- Where `_callout_thread` is. -/
inductive DispatcherPc (γ : Type*) where
  /-- At `wait_until` for a callout in the set. -/
  | waiting
  /-- At `wait_until` for its timer, set to `deadline`, or `_have_work`, for callout `c`. -/
  | timed (c : γ) (deadline : UInt64)
  /-- Running the handler of `c`, with `_callout_mutex` released. -/
  | handler (c : γ)
deriving DecidableEq

/-- Where a client thread is: `callout_drain` waits in `wait_until` for `CALLOUT_COMPLETED`. -/
inductive ClientPc (γ : Type*) where
  | idle
  | draining (c : γ)
deriving DecidableEq

/-- The callouts, `_callouts`, `_have_work`, the clock, the dispatcher and the clients. -/
structure Callouts (γ τ : Type*) where
  clock : UInt64
  callout : γ → CalloutState τ
  /-- `_callouts`, in its order. -/
  set : List γ
  haveWork : Bool
  dispatcher : DispatcherPc γ
  pc : τ → ClientPc γ

/-- What a step shows: the results of the calls, and each run of a handler, at the clock's time
with the callout's deadline. -/
inductive CalloutLabel (γ τ : Type*) where
  | reset (t : τ) (c : γ) (result : ℕ)
  | stopped (t : τ) (c : γ) (result : ℕ)
  | drained (t : τ) (c : γ) (result : ℕ)
  | invoked (c : γ) (now deadline : UInt64)
  | internal
deriving DecidableEq

/-- A step: the clock advances, a client calls `callout_reset_on`, `callout_stop` or
`callout_drain` or is woken in it, or the dispatcher runs. -/
inductive CalloutAction (γ τ : Type*) where
  | advance (now : UInt64)
  | reset (t : τ) (c : γ) (toTicks : UInt64)
  | stop (t : τ) (c : γ)
  | drain (t : τ) (c : γ)
  | drainWake (t : τ)
  | pick
  | timerWake
  | handlerDone

namespace Callouts

variable [LinearOrder γ] [DecidableEq τ]

/-- No callout is scheduled; the dispatcher waits for one. -/
def init : Callouts γ τ :=
  ⟨0, fun _ => ⟨0, false, false, false, none⟩, [], false, .waiting, fun _ => .idle⟩

def setCallout (s : Callouts γ τ) (c : γ) (f : CalloutState τ → CalloutState τ) : Callouts γ τ :=
  { s with callout := Function.update s.callout c (f (s.callout c)) }

/-- `callouts::remove_callout(c)` and `c_flags &= ~(CALLOUT_ACTIVE | CALLOUT_PENDING |
CALLOUT_COMPLETED)`. -/
def removeAndClear (s : Callouts γ τ) (c : γ) : Callouts γ τ :=
  { s.setCallout c (fun st => { st with pending := false, active := false, completed := false })
    with set := s.set.erase c }

/-- `_callout_stop_safe_locked(c, 0)`: no waiting, and the result stays `0`. -/
def stopSafeLocked (s : Callouts γ τ) (c : γ) : ℕ × Callouts γ τ := (0, s.removeAndClear c)

/-- `callout_reset_on(c, to_ticks, ...)`, under `_callout_mutex`. -/
def resetOn (s : Callouts γ τ) (c : γ) (toTicks : UInt64) : ℕ × Callouts γ τ :=
  let r := s.stopSafeLocked c
  let s₁ := r.2.setCallout c fun st =>
    { st with toNs := s.clock + ticks2ns toTicks, pending := true, active := true }
  let s₂ := { s₁ with set := addCallout (fun c => (s₁.callout c).toNs) c s₁.set }
  -- `if (c == callouts::get_one()) callouts::mark_have_work();`
  (r.1, if s₂.set.head? = some c then { s₂ with haveWork := true } else s₂)

/-- The dispatch: `c_flags &= ~CALLOUT_PENDING`, the mutex released, the handler called. -/
def dispatch (s : Callouts γ τ) (c : γ) : CalloutLabel γ τ × Callouts γ τ :=
  (.invoked c s.clock (s.callout c).toNs,
    { s.setCallout c (fun st => { st with pending := false }) with dispatcher := .handler c })

/-- The dispatcher with the mutex after its handler returned: a callout still in the set
loses its waiter, and is completed and removed unless it was rescheduled; the waiter is woken. -/
def handlerReturned (s : Callouts γ τ) (c : γ) : Callouts γ τ :=
  if c ∈ s.set then
    let st := s.callout c
    if st.pending = false ∨ st.waiter.isSome then
      { s.setCallout c (fun st => { st with waiter := none, completed := true }) with
          set := s.set.erase c, dispatcher := .waiting }
    else { s.setCallout c (fun st => { st with waiter := none }) with dispatcher := .waiting }
  else { s with dispatcher := .waiting }

/-- One step, when it is enabled. -/
def exec (s : Callouts γ τ) : CalloutAction γ τ → Option (CalloutLabel γ τ × Callouts γ τ)
  | .advance now => if s.clock ≤ now then some (.internal, { s with clock := now }) else none
  | .reset t c toTicks =>
      if s.pc t = .idle then some (.reset t c (s.resetOn c toTicks).1, (s.resetOn c toTicks).2)
      else none
  | .stop t c =>
      if s.pc t = .idle then some (.stopped t c (s.stopSafeLocked c).1, (s.stopSafeLocked c).2)
      else none
  | .drain t c =>
      if s.pc t = .idle then
        let st := s.callout c
        if st.pending ∨ (st.active ∧ ¬ st.completed) then
          -- `callout_set_waiter`, `mark_have_work`, and the wait for `CALLOUT_COMPLETED`
          some (.internal, { s.setCallout c (fun st => { st with waiter := some t }) with
            haveWork := true, pc := Function.update s.pc t (.draining c) })
        else some (.drained t c 0, s.removeAndClear c)
      else none
  | .drainWake t =>
      match s.pc t with
      | .draining c =>
          if (s.callout c).completed then
            some (.drained t c 1, { s.removeAndClear c with pc := Function.update s.pc t .idle })
          else none
      | .idle => none
  | .pick =>
      match s.dispatcher, s.set with
      | .waiting, c :: _ =>
          if s.clock < (s.callout c).toNs - TMILISECOND then
            -- `t.set(c->c_to_ns)` and the wait for the timer or `_have_work`
            some (.internal, { s with dispatcher := .timed c (s.callout c).toNs })
          else some (s.dispatch c)
      | _, _ => none
  | .timerWake =>
      match s.dispatcher with
      | .timed c deadline =>
          if deadline ≤ s.clock ∨ s.haveWork then
            -- `_have_work = false; expired = t.expired();`
            let s₁ := { s with haveWork := false }
            if deadline ≤ s.clock ∧ c ∈ s.set then some (s₁.dispatch c)
            else some (.internal, { s₁ with dispatcher := .waiting })
          else none
      | _ => none
  | .handlerDone =>
      match s.dispatcher with
      | .handler c => some (.internal, s.handlerReturned c)
      | _ => none

/-- `callout_stop` and `callout_reset_on` return `0`, whatever they cancelled. -/
theorem exec_result_zero {s s' : Callouts γ τ} {a : CalloutAction γ τ} {t : τ} {c : γ} {r : ℕ}
    (h : s.exec a = some (.stopped t c r, s') ∨ s.exec a = some (.reset t c r, s')) : r = 0 := by
  cases a with
  | reset u c' toTicks =>
      rcases h with h | h <;> simp only [exec, Option.ite_none_right_eq_some, Option.some.injEq,
        Prod.mk.injEq] at h
      · exact absurd h.2.1 (by simp)
      · obtain ⟨-, hl, -⟩ := h
        cases hl
        rfl
  | stop u c' =>
      rcases h with h | h <;> simp only [exec, Option.ite_none_right_eq_some, Option.some.injEq,
        Prod.mk.injEq] at h
      · obtain ⟨-, hl, -⟩ := h
        cases hl
        rfl
      · exact absurd h.2.1 (by simp)
  -- every other step shows `internal`, `drained` or `invoked`
  | advance now =>
      rcases h with h | h <;> simp [exec] at h
  | drain u c' =>
      rcases h with h | h <;> simp only [exec] at h <;> split_ifs at h <;> simp at h
  | drainWake u =>
      rcases h with h | h <;> simp only [exec] at h <;> split at h <;> (try split_ifs at h) <;>
        simp at h
  | pick =>
      rcases h with h | h <;> simp only [exec] at h <;> split at h <;> (try split_ifs at h) <;>
        simp [dispatch] at h
  | timerWake =>
      rcases h with h | h <;> simp only [exec] at h <;> split at h <;> (try split_ifs at h) <;>
        simp [dispatch] at h
  | handlerDone =>
      rcases h with h | h <;> simp only [exec] at h <;> split at h <;> simp at h

end Callouts

/-- The callouts `γ` (addresses), the client threads `τ` and `_callout_thread`. -/
def callout (γ τ : Type*) [LinearOrder γ] [DecidableEq τ] :
    System (Callouts γ τ) (CalloutLabel γ τ) where
  init s := s = Callouts.init
  step s l s' := ∃ a, s.exec a = some (l, s')

/-- **What `callout_stop` returns, and an early dispatch.**  Every `callout_stop` and
`callout_reset_on` returns `0`; in particular `callout_stop` of a callout just scheduled
cancels it and returns `0`.  And: callout `1` is scheduled at `10` ms, the dispatcher sleeps
for it, callout `2` is scheduled at `20` ms, and callout `1` is moved to `100` ms, behind `2`;
neither is first when scheduled, so the dispatcher is not woken, and at `10` ms it runs the
handler of `1`, whose deadline is `100` ms. -/
theorem callout_stop_result_and_early_dispatch :
    (∀ (s s' : Callouts ℕ (Fin 1)) (a : CalloutAction ℕ (Fin 1)) t c r,
      s.exec a = some (.stopped t c r, s') ∨ s.exec a = some (.reset t c r, s') → r = 0) ∧
    (∃ s₁ s₂, Exec (callout ℕ (Fin 1)) Callouts.init [.reset 0 1 0] s₁ ∧ (s₁.callout 1).pending ∧
      (callout ℕ (Fin 1)).step s₁ (.stopped 0 1 0) s₂ ∧ (s₂.callout 1).pending = false) ∧
    ∃ s, Exec (callout ℕ (Fin 1)) Callouts.init
      [.reset 0 1 0, .internal, .internal, .internal, .reset 0 2 0, .reset 0 1 0, .internal,
        .invoked 1 10000000 100000000] s ∧ (10000000 : UInt64) < 100000000 - TMILISECOND := by
  refine ⟨fun _ _ _ _ _ _ h => Callouts.exec_result_zero h, ?_, ?_⟩
  · exact ⟨_, _, .cons ⟨.reset 0 1 10, rfl⟩ (.nil _), rfl, ⟨.stop 0 1, rfl⟩, rfl⟩
  · exact ⟨_, .cons ⟨.reset 0 1 10, rfl⟩ <| .cons ⟨.pick, rfl⟩ <| .cons ⟨.timerWake, rfl⟩ <|
      .cons ⟨.pick, rfl⟩ <| .cons ⟨.reset 0 2 20, rfl⟩ <| .cons ⟨.reset 0 1 100, rfl⟩ <|
      .cons ⟨.advance 10000000, rfl⟩ <| .cons ⟨.timerWake, rfl⟩ <| .nil _, by decide⟩

end Osv.Bsd
