import Osv.Lib.Transition

/-!
# `semaphore`

`core/semaphore.cc`: a counting semaphore over a `mutex _mtx`, with an intrusive list
`_waiters` of the `wait_record`s of blocked `wait`s.  Each of `post`, `trywait` and the first
part of `wait` is one critical section under `_mtx`, and so one step here; a blocked `wait`
returns in a second critical section, when `post` has granted its record (`owner` cleared) or
when its timer has expired.  A record lives in the frame of its `wait`: here records are
numbered as they are created, and the list holds their numbers.

**What holds.**  Every record on `_waiters` asks for more units than `_val` holds, after every
step (`Inv.step`, `inv_reachable`): `post`'s loop keeps exactly the records it cannot
serve (`postLoop_spec`).

**What does not.**  A timed-out `wait` returns with its record still on `_waiters`, and a later
`post` grants that record units no call receives.  `trywait(u)` succeeds only when `_val > u`,
where `wait(u)` returns at once when `_val >= u`, so `sem_trywait` fails with `EAGAIN` on a
semaphore of value `1` (`semaphore_timeout_and_trywait`).
-/

namespace Osv.Sync

open Transition

variable {τ : Type*}

/-- A `semaphore::wait_record`. -/
structure WaitRecord (τ : Type*) where
  /-- The waiting thread; `nullptr` once `post` has granted the record. -/
  owner : Option τ
  units : UInt32

/-- Where a thread is in `wait`. -/
inductive Waiting where
  /-- Not blocked in `wait`. -/
  | idle
  /-- In `wait_until` on record `wr`; `timed` when it was given a timer. -/
  | blocked (wr : ℕ) (timed : Bool)

/-- A `semaphore` and its callers. -/
structure Semaphore (τ : Type*) where
  val : UInt32
  /-- `_waiters`, oldest first. -/
  waiters : List ℕ
  /-- The records of the `wait`s, by number. -/
  records : ℕ → WaitRecord τ
  /-- The number the next record gets. -/
  fresh : ℕ
  thread : τ → Waiting

/-- What a step shows: the calls returning, with their results. -/
inductive Label (τ : Type*) where
  | post (t : τ) (units : UInt32)
  | wait (t : τ) (units : UInt32) (ok : Bool)
  | blocked (t : τ) (units : UInt32)
  | waitReturned (t : τ) (ok : Bool)
  | trywait (t : τ) (units : UInt32) (ok : Bool)

/-- A step: a thread calls `post`, `wait` or `trywait`, or a blocked `wait` returns, granted
or timed out. -/
inductive Action (τ : Type*) where
  | post (t : τ) (units : UInt32)
  | wait (t : τ) (units : UInt32) (timed : Bool)
  | wake (t : τ)
  | timeout (t : τ)
  | trywait (t : τ) (units : UInt32)

namespace Semaphore

/-- `semaphore(val)`. -/
def init (val : UInt32) : Semaphore τ :=
  ⟨val, [], fun _ => ⟨none, 0⟩, 0, fun _ => .idle⟩

/-- The loop of `post`: while `_val > 0`, walk `_waiters` and grant every record whose units
fit.  Returns `_val`, the records kept and the records granted. -/
def postLoop (records : ℕ → WaitRecord τ) : UInt32 → List ℕ → UInt32 × List ℕ × List ℕ
  | val, [] => (val, [], [])
  | val, wr :: rest =>
      if 0 < val then
        if (records wr).units ≤ val then
          let r := postLoop records (val - (records wr).units) rest
          (r.1, r.2.1, wr :: r.2.2)
        else
          let r := postLoop records val rest
          (r.1, wr :: r.2.1, r.2.2)
      else (val, wr :: rest, [])

/-- Clear the `owner` of the granted records. -/
def grant (records : ℕ → WaitRecord τ) (granted : List ℕ) : ℕ → WaitRecord τ :=
  fun wr => if wr ∈ granted then { records wr with owner := none } else records wr

@[simp] theorem grant_owner (records : ℕ → WaitRecord τ) (granted : List ℕ) (wr : ℕ) :
    (grant records granted wr).owner = if wr ∈ granted then none else (records wr).owner := by
  unfold grant
  split_ifs <;> rfl

@[simp] theorem grant_units (records : ℕ → WaitRecord τ) (granted : List ℕ) (wr : ℕ) :
    (grant records granted wr).units = (records wr).units := by
  unfold grant
  split_ifs <;> rfl

/-- `post(units)`. -/
def post (s : Semaphore τ) (units : UInt32) : Semaphore τ :=
  let r := postLoop s.records (s.val + units) s.waiters
  { s with val := r.1, waiters := r.2.1, records := grant s.records r.2.2 }

variable [DecidableEq τ]

/-- Thread `t` moves to `w`. -/
def setThread (s : Semaphore τ) (t : τ) (w : Waiting) : Semaphore τ :=
  { s with thread := Function.update s.thread t w }

/-- `wait(units, tmr)` entering its critical section: it takes the units, or queues a record
and blocks. -/
def wait (s : Semaphore τ) (t : τ) (units : UInt32) (timed : Bool) : Label τ × Semaphore τ :=
  if units ≤ s.val then (.wait t units true, { s with val := s.val - units })
  else
    (.blocked t units,
      { s with waiters := s.waiters ++ [s.fresh],
               records := Function.update s.records s.fresh ⟨some t, units⟩,
               fresh := s.fresh + 1, thread := Function.update s.thread t (.blocked s.fresh timed) })

/-- `trywait(units)`. -/
def trywait (s : Semaphore τ) (t : τ) (units : UInt32) : Label τ × Semaphore τ :=
  if units < s.val then (.trywait t units true, { s with val := s.val - units })
  else (.trywait t units false, s)

/-- One step, or `none` when the thread is not where the step starts. -/
def exec (s : Semaphore τ) : Action τ → Option (Label τ × Semaphore τ)
  | .post t units =>
      match s.thread t with
      | .idle => some (.post t units, s.post units)
      | .blocked _ _ => none
  | .wait t units timed =>
      match s.thread t with
      | .idle => some (s.wait t units timed)
      | .blocked _ _ => none
  | .wake t =>
      -- `wait_until` returns once `post` has cleared the record's owner: `return !wr.owner`
      match s.thread t with
      | .blocked wr _ =>
          match (s.records wr).owner with
          | none => some (.waitReturned t true, s.setThread t .idle)
          | some _ => none
      | .idle => none
  | .timeout t =>
      -- the timer expired with the record not granted: `wait` returns `false`, and nothing
      -- takes the record off `_waiters`
      match s.thread t with
      | .blocked wr true =>
          match (s.records wr).owner with
          | some _ => some (.waitReturned t false, s.setThread t .idle)
          | none => none
      | _ => none
  | .trywait t units =>
      match s.thread t with
      | .idle => some (s.trywait t units)
      | .blocked _ _ => none

end Semaphore

/-- The semaphore `semaphore(val)` and its callers. -/
def semaphore (τ : Type*) [DecidableEq τ] (val : UInt32) : System (Semaphore τ) (Label τ) where
  init s := s = Semaphore.init val
  step s l t := ∃ a, s.exec a = some (l, t)

namespace Semaphore

/-! ## `post`'s loop -/

section postLoop

variable {records : ℕ → WaitRecord τ}

/-- **The loop of `post`.**  It splits `_waiters` into the records it keeps and those it
grants, each in order and every record in one of them; what it grants, added to the `_val` it
ends with, is the `_val` it started with; and, if every record asks for some units, every
record it keeps asks for more than that final `_val`. -/
theorem postLoop_spec (val : UInt32) (l : List ℕ) :
    (postLoop records val l).2.1.Sublist l ∧ (postLoop records val l).2.2.Sublist l ∧
      (∀ wr ∈ l, wr ∈ (postLoop records val l).2.1 ∨ wr ∈ (postLoop records val l).2.2) ∧
      (postLoop records val l).1.toNat +
          ((postLoop records val l).2.2.map fun wr => (records wr).units.toNat).sum = val.toNat ∧
      (postLoop records val l).1 ≤ val ∧
      ((∀ wr ∈ l, 0 < (records wr).units) →
        ∀ wr ∈ (postLoop records val l).2.1, (postLoop records val l).1 < (records wr).units) := by
  induction l generalizing val with
  | nil => simp [postLoop]
  | cons wr rest ih =>
      by_cases hpos : 0 < val
      · by_cases hfit : (records wr).units ≤ val
        · -- the record is granted and the loop goes on with less
          obtain ⟨hk, hg, hall, hsum, hle, hgt⟩ := ih (val - (records wr).units)
          have hsub : (val - (records wr).units).toNat = val.toNat - (records wr).units.toNat :=
            UInt32.toNat_sub_of_le _ _ hfit
          have hfit' : (records wr).units.toNat ≤ val.toNat := UInt32.le_iff_toNat_le.mp hfit
          simp only [postLoop, hpos, hfit, if_true]
          refine ⟨hk.cons wr, hg.cons_cons wr, ?_, ?_, ?_, fun hpos w hw => hgt (fun w hw => hpos w
            (.tail _ hw)) w hw⟩
          · intro w hw
            rcases List.mem_cons.mp hw with rfl | hw
            · exact .inr List.mem_cons_self
            · exact (hall w hw).imp id (List.mem_cons_of_mem _)
          · simp only [List.map_cons, List.sum_cons]
            omega
          · rw [UInt32.le_iff_toNat_le] at hle ⊢
            omega
        · -- the record is kept
          obtain ⟨hk, hg, hall, hsum, hle, hgt⟩ := ih val
          simp only [postLoop, hpos, hfit, if_true, if_false]
          refine ⟨hk.cons_cons wr, hg.cons wr, ?_, hsum, hle, fun hpos w hw => ?_⟩
          · intro w hw
            rcases List.mem_cons.mp hw with rfl | hw
            · exact .inl List.mem_cons_self
            · exact (hall w hw).imp (List.mem_cons_of_mem _) id
          · rcases List.mem_cons.mp hw with rfl | hw
            · exact UInt32.lt_of_le_of_lt hle (UInt32.not_le.mp hfit)
            · exact hgt (fun w hw => hpos w (.tail _ hw)) w hw
      · -- `_val` is `0`: the loop stops and keeps the rest
        have hzero : val = 0 := by
          rw [UInt32.lt_iff_toNat_lt, UInt32.toNat_zero] at hpos
          exact UInt32.toNat_inj.mp (by rw [UInt32.toNat_zero]; omega)
        simp only [postLoop, hpos, if_false]
        refine ⟨List.Sublist.refl _, List.nil_sublist _, fun w hw => .inl hw, by simp, UInt32.le_refl _,
          fun hpos w hw => ?_⟩
        rw [hzero]
        exact hpos w hw

end postLoop

/-! ## The invariant -/

section Inv

/-- What every step keeps: every record on `_waiters` asks for more units than `_val` holds;
and a blocked `wait` whose record is not granted has it on `_waiters` (the converse fails once
a wait times out).  Records are numbered below `fresh`. -/
structure Inv (s : Semaphore τ) : Prop where
  units_gt : ∀ wr ∈ s.waiters, s.val < (s.records wr).units
  waiters_lt : ∀ wr ∈ s.waiters, wr < s.fresh
  blocked_lt : ∀ t wr timed, s.thread t = .blocked wr timed → wr < s.fresh
  queued : ∀ t wr timed, s.thread t = .blocked wr timed → (s.records wr).owner = some t →
    wr ∈ s.waiters

theorem inv_init (val : UInt32) : Inv (init val : Semaphore τ) where
  units_gt _ h := nomatch h
  waiters_lt _ h := nomatch h
  blocked_lt _ _ _ h := nomatch h
  queued _ _ _ h := nomatch h

variable {s : Semaphore τ}

/-- `post` keeps the records it cannot serve, each asking for more than the new `_val`, and
clears the owner of each record it grants. -/
theorem Inv.post (h : Inv s) (units : UInt32) : Inv (s.post units) := by
  have hpos : ∀ w ∈ s.waiters, 0 < (s.records w).units :=
    fun w hw => UInt32.lt_of_le_of_lt UInt32.zero_le (h.units_gt w hw)
  obtain ⟨hk, -, hall, -, -, hgt⟩ := @postLoop_spec τ s.records (s.val + units) s.waiters
  refine ⟨fun wr hwr => ?_, fun wr hwr => h.waiters_lt wr (hk.subset hwr), h.blocked_lt,
    fun t wr timed ht howner => ?_⟩
  · show _ < (grant s.records _ wr).units
    rw [grant_units]
    exact hgt hpos wr hwr
  · -- a record still owned was not granted, so the loop kept it
    change (grant s.records _ wr).owner = some t at howner
    rw [grant_owner] at howner
    split_ifs at howner with hg
    exact (hall wr (h.queued t wr timed ht howner)).resolve_right hg

/-- Taking units lowers `_val` and keeps the records. -/
theorem Inv.take (h : Inv s) {units : UInt32} (hle : units ≤ s.val) :
    Inv { s with val := s.val - units } where
  units_gt wr hwr := by
    have hsub := UInt32.toNat_sub_of_le _ _ hle
    have hlt := UInt32.lt_iff_toNat_lt.mp (h.units_gt wr hwr)
    show s.val - units < (s.records wr).units
    rw [UInt32.lt_iff_toNat_lt, hsub]
    omega
  waiters_lt := h.waiters_lt
  blocked_lt := h.blocked_lt
  queued := h.queued

/-- `trywait` takes its units only when more are left. -/
theorem Inv.trywait (h : Inv s) (t : τ) (units : UInt32) : Inv (s.trywait t units).2 := by
  unfold Semaphore.trywait
  split_ifs with hlt
  · exact h.take (UInt32.le_of_lt hlt)
  · exact h

variable [DecidableEq τ]

/-- A `wait` that cannot take its units queues a fresh record asking for more than `_val`. -/
theorem Inv.block (h : Inv s) {t : τ} {units : UInt32}
    (hgt : s.val < units) (timed : Bool) :
    Inv { s with waiters := s.waiters ++ [s.fresh],
                 records := Function.update s.records s.fresh ⟨some t, units⟩,
                 fresh := s.fresh + 1,
                 thread := Function.update s.thread t (.blocked s.fresh timed) } where
  units_gt wr hwr := by
    dsimp only at hwr ⊢
    rcases List.mem_append.mp hwr with hwr | hwr
    · rw [Function.update_of_ne (Nat.ne_of_lt (h.waiters_lt wr hwr))]
      exact h.units_gt wr hwr
    · rw [List.mem_singleton.mp hwr, Function.update_self]
      exact hgt
  waiters_lt wr hwr := by
    dsimp only at hwr ⊢
    rcases List.mem_append.mp hwr with hwr | hwr
    · exact Nat.lt_succ_of_lt (h.waiters_lt wr hwr)
    · rw [List.mem_singleton.mp hwr]
      exact Nat.lt_succ_self _
  blocked_lt t' wr timed' ht' := by
    dsimp only at ht'
    rw [Function.update_apply] at ht'
    split_ifs at ht' with htt
    · cases ht'
      exact Nat.lt_succ_self _
    · exact Nat.lt_succ_of_lt (h.blocked_lt t' wr timed' ht')
  queued t' wr timed' ht' howner := by
    dsimp only at ht' howner ⊢
    rw [Function.update_apply] at ht'
    split_ifs at ht' with htt
    · cases ht'
      exact List.mem_append_right _ (List.mem_singleton_self _)
    · have hlt := h.blocked_lt t' wr timed' ht'
      rw [Function.update_of_ne (Nat.ne_of_lt hlt)] at howner
      exact List.mem_append_left _ (h.queued t' wr timed' ht' howner)

/-- `wait` takes its units, or blocks on a fresh record. -/
theorem Inv.wait (h : Inv s) (t : τ) (units : UInt32) (timed : Bool) :
    Inv (s.wait t units timed).2 := by
  unfold Semaphore.wait
  split_ifs with hle
  · exact h.take hle
  · exact h.block (UInt32.not_le.mp hle) timed

/-- A blocked `wait` returns, granted or timed out. -/
theorem Inv.leave (h : Inv s) (t : τ) : Inv (s.setThread t .idle) where
  units_gt := h.units_gt
  waiters_lt := h.waiters_lt
  blocked_lt t' wr timed ht' := by
    simp only [setThread, Function.update_apply] at ht'
    split_ifs at ht'
    exact h.blocked_lt t' wr timed ht'
  queued t' wr timed ht' := by
    simp only [setThread, Function.update_apply] at ht'
    split_ifs at ht'
    exact h.queued t' wr timed ht'

/-- **Every step keeps the invariant.** -/
theorem Inv.step (h : Inv s) {a : Action τ} {l : Label τ} {s' : Semaphore τ}
    (hexec : s.exec a = some (l, s')) : Inv s' := by
  cases a with
  | post t units =>
      cases ht : s.thread t with
      | idle =>
          simp only [exec, ht, Option.some.injEq, Prod.mk.injEq] at hexec
          obtain ⟨-, rfl⟩ := hexec
          exact h.post units
      | blocked _ _ => simp [exec, ht] at hexec
  | wait t units timed =>
      cases ht : s.thread t with
      | idle =>
          simp only [exec, ht, Option.some.injEq] at hexec
          rw [show s' = (s.wait t units timed).2 from (congrArg Prod.snd hexec).symm]
          exact h.wait t units timed
      | blocked _ _ => simp [exec, ht] at hexec
  | wake t =>
      cases ht : s.thread t with
      | blocked wr timed =>
          cases howner : (s.records wr).owner with
          | none =>
              simp only [exec, ht, howner, Option.some.injEq, Prod.mk.injEq] at hexec
              obtain ⟨-, rfl⟩ := hexec
              exact h.leave t
          | some _ => simp [exec, ht, howner] at hexec
      | idle => simp [exec, ht] at hexec
  | timeout t =>
      cases ht : s.thread t with
      | blocked wr timed =>
          cases timed with
          | true =>
              cases howner : (s.records wr).owner with
              | some _ =>
                  simp only [exec, ht, howner, Option.some.injEq, Prod.mk.injEq] at hexec
                  obtain ⟨-, rfl⟩ := hexec
                  exact h.leave t
              | none => simp [exec, ht, howner] at hexec
          | false => simp [exec, ht] at hexec
      | idle => simp [exec, ht] at hexec
  | trywait t units =>
      cases ht : s.thread t with
      | idle =>
          simp only [exec, ht, Option.some.injEq] at hexec
          rw [show s' = (s.trywait t units).2 from (congrArg Prod.snd hexec).symm]
          exact h.trywait t units
      | blocked _ _ => simp [exec, ht] at hexec

end Inv

/-- In every reachable state, every record on `_waiters` asks for more units than `_val`
holds, and every blocked `wait` whose record is not granted has it there. -/
theorem inv_reachable [DecidableEq τ] {val : UInt32} {s : Semaphore τ}
    (hs : Reachable (semaphore τ val) s) : Inv s := by
  refine Inductive.reachable ⟨fun s hs => ?_, fun s l s' h hstep => ?_⟩ hs
  · rw [hs]
    exact inv_init val
  · obtain ⟨a, hexec⟩ := hstep
    exact h.step hexec

/-! ## What does not hold -/

/-- Thread `0`'s `wait(1, tmr)` on `semaphore(0)` times out; then thread `1` calls `post(1)`.
The returned `wait` left its record on `_waiters`, and `post` grants it the unit: `_val` is
`0` though nothing was taken.  And on `semaphore(1)`, `trywait(1)` fails where `wait(1)`
returns at once. -/
theorem semaphore_timeout_and_trywait :
    (∃ s₁ s₂ s₃ : Semaphore ℕ,
      (init 0).exec (.wait 0 1 true) = some (.blocked 0 1, s₁) ∧
      s₁.exec (.timeout 0) = some (.waitReturned 0 false, s₂) ∧
      s₂.thread 0 = .idle ∧ s₂.waiters = [0] ∧
      s₂.exec (.post 1 1) = some (.post 1 1, s₃) ∧ s₃.val = 0 ∧ s₃.waiters = []) ∧
    ((init 1 : Semaphore ℕ).exec (.trywait 0 1) = some (.trywait 0 1 false, init 1) ∧
      ∃ s' : Semaphore ℕ, (init 1).exec (.wait 0 1 false) = some (.wait 0 1 true, s')) :=
  ⟨⟨_, _, _, rfl, rfl, rfl, rfl, rfl, rfl, rfl⟩, rfl, _, rfl⟩

end Semaphore

end Osv.Sync
