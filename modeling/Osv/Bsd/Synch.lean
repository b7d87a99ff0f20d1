import Mathlib.Data.List.Nodup
import Mathlib.Data.List.Perm.Basic
import Osv.Lib.Transition

/-!
# `msleep` and `wakeup`

`bsd/porting/synch.cc` keeps a `std::multimap<void *, synch_thread *> _evlist` from channels
to the `synch_thread` records of the threads in `msleep`, under `mutex_t _lock`.  `msleep`
inserts its record, waits until its `_awake` flag is set (or, with a timeout, until its timer
expires), and on a timeout removes its record itself; `wakeup(chan)` sets `_awake` on the
records of `chan` and erases them, `wakeup_one(chan)` the first of them.

Channels are pointers, numbers here, `0` being `nullptr`.  `_evlist` is the list of its
entries in key order, equal keys in the order of insertion, as `insert` places them.  Each of
`msleep`'s accesses under `_lock` is a step, and so is its unlocked test of `_awake`; the
caller's `mtx` and `PDROP` play no part in the channels and are left out.

**What holds** (`Synch.inv_reachable`).  A thread's record is on `_evlist` only while it is in
`msleep`, with its own channel as key, so after `msleep` returns its record is gone.

**What does not** (`synch_wakeup_one_wrong_channel_and_lost`).  `wakeup_one` tests the lower
end of `equal_range(chan)` against `_evlist.end()` instead of the upper end, so it wakes the
first sleeper on a greater channel when `chan` has none, and that `msleep` returns `0`.  And a
timed `msleep` reads `_awake` before taking `_lock`: a `wakeup_one` in between erases and wakes
its record, and `msleep` still returns `EWOULDBLOCK`, the wakeup lost.
-/

namespace Osv.Bsd

open Transition

variable {τ : Type*}

/-- `EWOULDBLOCK` -/
def EWOULDBLOCK : ℕ := 35

/-- `_evlist.insert(std::make_pair(chan, &wait))`: after every entry whose key is not greater. -/
def insertEv (r : ℕ × τ) : List (ℕ × τ) → List (ℕ × τ)
  | [] => [r]
  | e :: rest => if r.1 < e.1 then r :: e :: rest else e :: insertEv r rest

theorem insertEv_nil (r : ℕ × τ) : insertEv r [] = [r] := rfl

theorem insertEv_cons (r e : ℕ × τ) (rest : List (ℕ × τ)) :
    insertEv r (e :: rest) = if r.1 < e.1 then r :: e :: rest else e :: insertEv r rest := rfl

/-- `_evlist.equal_range(chan).first`, dereferenced if it is not `_evlist.end()`: the first entry
whose key is not less than `chan`. -/
def lowerBound (chan : ℕ) (l : List (ℕ × τ)) : Option (ℕ × τ) := l.find? fun e => chan ≤ e.1

@[simp] theorem mem_insertEv {r e : ℕ × τ} {l : List (ℕ × τ)} :
    e ∈ insertEv r l ↔ e = r ∨ e ∈ l := by
  induction l with
  | nil => simp [insertEv_nil]
  | cons e' rest ih =>
      rw [insertEv_cons]
      split_ifs <;> simp [ih, or_left_comm]

theorem insertEv_perm (r : ℕ × τ) (l : List (ℕ × τ)) : (insertEv r l).Perm (r :: l) := by
  induction l with
  | nil => simp [insertEv_nil]
  | cons e rest ih =>
      rw [insertEv_cons]
      split_ifs
      · exact List.Perm.refl _
      · exact (ih.cons e).trans (List.Perm.swap r e rest)

theorem mem_of_lowerBound {chan : ℕ} {l : List (ℕ × τ)} {e : ℕ × τ}
    (h : lowerBound chan l = some e) : e ∈ l ∧ chan ≤ e.1 := by
  have hmem := List.mem_of_find?_eq_some h
  have hle := List.find?_some h
  exact ⟨hmem, by simpa using hle⟩

/-- Two entries of one thread on a list of entries whose threads are distinct are equal. -/
theorem key_unique {l : List (ℕ × τ)} (hl : (l.map Prod.snd).Nodup) {k k' : ℕ} {t : τ}
    (h : (k, t) ∈ l) (h' : (k', t) ∈ l) : k = k' :=
  congrArg Prod.fst (List.inj_on_of_nodup_map hl h h' rfl)

/-- Where a thread is in `msleep`. -/
inductive SleepPc where
  | idle
  /-- In `wait_until`, on `chan`; `timed` when `timo_hz` is not `0`. -/
  | sleeping (chan : ℕ) (timed : Bool)
  /-- The timed `wait_until` returned; next is the test `if (!wait._awake)`. -/
  | testing (chan : ℕ)
  /-- Not woken: next is the removal of its record under `_lock`. -/
  | removing (chan : ℕ)
deriving DecidableEq

/-- The channel a thread in `msleep` sleeps on. -/
def SleepPc.chan : SleepPc → Option ℕ
  | .idle => none
  | .sleeping chan _ => some chan
  | .testing chan => some chan
  | .removing chan => some chan

/-- `_evlist`, the `synch_thread` records, the timers and the callers. -/
structure Synch (τ : Type*) where
  evlist : List (ℕ × τ)
  /-- `_awake` of each thread's record. -/
  awake : τ → Bool
  /-- Whether each thread's timer `t` has expired. -/
  expired : τ → Bool
  pc : τ → SleepPc

/-- What a step shows: the calls and returns of `msleep`, and whom each wakeup woke. -/
inductive SynchLabel (τ : Type*) where
  | slept (t : τ) (chan : ℕ)
  | returned (t : τ) (ret : ℕ)
  | woke (chan : ℕ) (woken : List (ℕ × τ))
  | wokeOne (chan : ℕ) (woken : Option (ℕ × τ))
  | internal
deriving DecidableEq

/-- A step: a thread enters `msleep`, a timer expires, a sleeper runs its next step, or some
thread calls `wakeup` or `wakeup_one`. -/
inductive SynchAction (τ : Type*) where
  | msleep (t : τ) (chan : ℕ) (timo : ℕ)
  | expire (t : τ)
  | resume (t : τ)
  | wakeup (chan : ℕ)
  | wakeupOne (chan : ℕ)

namespace Synch

variable [DecidableEq τ]

/-- No thread is in `msleep`. -/
def init : Synch τ := ⟨[], fun _ => false, fun _ => false, fun _ => .idle⟩

def setPc (s : Synch τ) (t : τ) (p : SleepPc) : Synch τ := { s with pc := Function.update s.pc t p }

/-- The entry of `msleep`: `wait._awake = false`, the timer set, the record inserted if `chan`
is not null. -/
def msleep (s : Synch τ) (t : τ) (chan timo : ℕ) : Synch τ :=
  { evlist := if chan ≠ 0 then insertEv (chan, t) s.evlist else s.evlist,
    awake := Function.update s.awake t false,
    expired := Function.update s.expired t false,
    pc := Function.update s.pc t (.sleeping chan (timo ≠ 0)) }

/-- The next step of a thread in `msleep`. -/
def resume (s : Synch τ) (t : τ) : Option (SynchLabel τ × Synch τ) :=
  match s.pc t with
  | .sleeping _ false =>
      -- `wait_until([&] { return (wait._awake); })`, then `return (0)`
      if s.awake t then some (.returned t 0, s.setPc t .idle) else none
  | .sleeping chan true =>
      -- `wait_until([&] { return ((t.expired()) || (wait._awake)); })`
      if s.expired t || s.awake t then some (.internal, s.setPc t (.testing chan)) else none
  | .testing chan =>
      if s.awake t then some (.returned t 0, s.setPc t .idle)
      else if chan ≠ 0 then some (.internal, s.setPc t (.removing chan))
      else some (.returned t EWOULDBLOCK, s.setPc t .idle)
  | .removing chan =>
      -- the loop over `equal_range(chan)` erases `&wait` if it is there
      some (.returned t EWOULDBLOCK, { s.setPc t .idle with evlist := s.evlist.erase (chan, t) })
  | .idle => none

/-- `wakeup(chan)`: every record of `chan` woken, the range erased. -/
def wakeup (s : Synch τ) (chan : ℕ) : SynchLabel τ × Synch τ :=
  (.woke chan (s.evlist.filter fun e => e.1 = chan),
    { s with evlist := s.evlist.filter fun e => e.1 ≠ chan,
             awake := fun u => s.awake u || (chan, u) ∈ s.evlist })

/-- `wakeup_one(chan)`: the entry at `equal_range(chan).first`, if that is not `end()`, woken
and erased. -/
def wakeupOne (s : Synch τ) (chan : ℕ) : SynchLabel τ × Synch τ :=
  match lowerBound chan s.evlist with
  | some e =>
      (.wokeOne chan (some e),
        { s with evlist := s.evlist.erase e, awake := Function.update s.awake e.2 true })
  | none => (.wokeOne chan none, s)

/-- One step, when it is enabled. -/
def exec (s : Synch τ) : SynchAction τ → Option (SynchLabel τ × Synch τ)
  | .msleep t chan timo => if s.pc t = .idle then some (.slept t chan, s.msleep t chan timo) else none
  | .expire t =>
      match s.pc t with
      | .sleeping _ true => some (.internal, { s with expired := Function.update s.expired t true })
      | _ => none
  | .resume t => s.resume t
  | .wakeup chan => some (s.wakeup chan)
  | .wakeupOne chan => some (s.wakeupOne chan)

/-! ## Records are on `_evlist` only during `msleep` -/

/-- **The invariant.**  Every record on `_evlist` belongs to a thread in `msleep` on the record's
channel, which is not null; each thread has at most one record; a record marked `_awake` has
left the list. -/
structure Inv (s : Synch τ) : Prop where
  chan_eq : ∀ k t, (k, t) ∈ s.evlist → (s.pc t).chan = some k
  key_ne : ∀ k t, (k, t) ∈ s.evlist → k ≠ 0
  nodup : (s.evlist.map Prod.snd).Nodup
  awake : ∀ k t, s.awake t = true → (k, t) ∉ s.evlist

omit [DecidableEq τ] in
theorem inv_init : Inv (init : Synch τ) := ⟨by simp [init], by simp [init], by simp [init], by simp [init]⟩

namespace Inv

variable {s : Synch τ}

omit [DecidableEq τ] in
/-- A thread not in `msleep` has no record. -/
theorem not_mem_of_idle (h : Inv s) {t : τ} (ht : s.pc t = .idle) (k : ℕ) : (k, t) ∉ s.evlist :=
  fun hk => by simpa [ht, SleepPc.chan] using h.chan_eq k t hk

/-- A step that keeps the list, the flags and the channel of every thread keeps the invariant;
this covers a thread moving within `msleep` on its channel. -/
theorem setPc_chan (h : Inv s) {t : τ} {p : SleepPc} (hp : p.chan = (s.pc t).chan) :
    Inv (s.setPc t p) where
  chan_eq k u hu := by
    rcases eq_or_ne u t with rfl | hne
    · simpa [setPc, hp] using h.chan_eq k u hu
    · simpa [setPc, Function.update_of_ne hne] using h.chan_eq k u hu
  key_ne := h.key_ne
  nodup := h.nodup
  awake := h.awake

/-- A thread without records returns from `msleep`. -/
theorem setPc_idle (h : Inv s) {t : τ} (ht : ∀ k, (k, t) ∉ s.evlist) : Inv (s.setPc t .idle) where
  chan_eq k u hu := by
    rcases eq_or_ne u t with rfl | hne
    · exact absurd hu (ht k)
    · simpa [setPc, Function.update_of_ne hne] using h.chan_eq k u hu
  key_ne := h.key_ne
  nodup := h.nodup
  awake := h.awake

omit [DecidableEq τ] in
/-- Entries may be dropped from the list. -/
theorem sublist (h : Inv s) {l : List (ℕ × τ)} (hl : l.Sublist s.evlist) {awake : τ → Bool}
    (ha : ∀ k t, awake t = true → (k, t) ∉ l) : Inv { s with evlist := l, awake := awake } where
  chan_eq k t hk := h.chan_eq k t (hl.subset hk)
  key_ne k t hk := h.key_ne k t (hl.subset hk)
  nodup := h.nodup.sublist (hl.map Prod.snd)
  awake := ha

theorem msleep (h : Inv s) {t : τ} (ht : s.pc t = .idle) (chan timo : ℕ) :
    Inv (s.msleep t chan timo) := by
  have hnone := h.not_mem_of_idle ht
  -- the new list holds the old entries and, for a non-null channel, `(chan, t)`
  have hmem : ∀ e, e ∈ (s.msleep t chan timo).evlist → e = (chan, t) ∧ chan ≠ 0 ∨ e ∈ s.evlist := by
    intro e he
    by_cases hc : chan = 0
    · exact .inr (by simpa [Synch.msleep, hc] using he)
    · have he' : e = (chan, t) ∨ e ∈ s.evlist := by simpa [Synch.msleep, hc] using he
      exact he'.imp (fun he => ⟨he, hc⟩) id
  constructor
  · intro k u hu
    rcases hmem _ hu with ⟨he, -⟩ | hold
    · obtain ⟨rfl, rfl⟩ := Prod.mk.inj he
      simp [Synch.msleep, SleepPc.chan]
    · have hne : u ≠ t := by
        rintro rfl
        exact hnone k hold
      simpa [Synch.msleep, Function.update_of_ne hne] using h.chan_eq k u hold
  · intro k u hu
    rcases hmem _ hu with ⟨he, hc⟩ | hold
    · rw [(Prod.mk.inj he).1]
      exact hc
    · exact h.key_ne k u hold
  · by_cases hc : chan = 0
    · simpa [Synch.msleep, hc] using h.nodup
    · have hl : (s.msleep t chan timo).evlist = insertEv (chan, t) s.evlist := by
        simp [Synch.msleep, hc]
      rw [hl]
      refine ((insertEv_perm _ _).map Prod.snd).nodup_iff.mpr (List.nodup_cons.mpr ⟨?_, h.nodup⟩)
      simp only [List.mem_map, not_exists, not_and]
      intro e he het
      exact hnone e.1 (het ▸ he)
  · intro k u hu hk
    rcases eq_or_ne u t with rfl | hne
    · simp [Synch.msleep] at hu
    · have hu' : s.awake u = true := by simpa [Synch.msleep, Function.update_of_ne hne] using hu
      rcases hmem _ hk with ⟨he, -⟩ | hold
      · exact hne (Prod.mk.inj he).2
      · exact h.awake k u hu' hold

/-- `wakeup(chan)` erases every record it marks. -/
theorem wakeup (h : Inv s) (chan : ℕ) : Inv (s.wakeup chan).2 := by
  refine h.sublist List.filter_sublist ?_
  intro k u hu hk
  rw [List.mem_filter] at hk
  rcases Bool.or_eq_true _ _ ▸ hu with hu | hu
  · exact h.awake k u hu hk.1
  · have := key_unique h.nodup hk.1 (of_decide_eq_true hu)
    simp [this] at hk

/-- `wakeup_one(chan)` erases the record it marks. -/
theorem wakeupOne (h : Inv s) (chan : ℕ) : Inv (s.wakeupOne chan).2 := by
  unfold Synch.wakeupOne
  split
  next e he =>
    have hnd : s.evlist.Nodup := List.Nodup.of_map Prod.snd h.nodup
    refine h.sublist (List.erase_sublist) ?_
    intro k u hu hk
    rw [hnd.mem_erase_iff] at hk
    rcases eq_or_ne u e.2 with rfl | hne
    · have := key_unique h.nodup hk.2 (mem_of_lowerBound he).1
      exact hk.1 (Prod.ext this rfl)
    · rw [Function.update_of_ne hne] at hu
      exact h.awake k u hu hk.2
  next => exact h

/-- The timed-out `msleep` erases its own record, if a wakeup has not. -/
theorem remove (h : Inv s) {t : τ} {chan : ℕ} (ht : s.pc t = .removing chan) :
    Inv { s.setPc t .idle with evlist := s.evlist.erase (chan, t) } := by
  have hnd : s.evlist.Nodup := List.Nodup.of_map Prod.snd h.nodup
  have hgone : ∀ k, (k, t) ∉ s.evlist.erase (chan, t) := by
    intro k hk
    rw [hnd.mem_erase_iff] at hk
    have hk' := h.chan_eq k t hk.2
    rw [ht] at hk'
    simp only [SleepPc.chan, Option.some.injEq] at hk'
    exact hk.1 (by rw [hk'])
  have hsub := List.erase_sublist (a := (chan, t)) (l := s.evlist)
  constructor
  · intro k u hu
    rcases eq_or_ne u t with rfl | hne
    · exact absurd hu (hgone k)
    · simpa [setPc, Function.update_of_ne hne] using h.chan_eq k u (hsub.subset hu)
  · exact fun k u hu => h.key_ne k u (hsub.subset hu)
  · exact h.nodup.sublist (hsub.map Prod.snd)
  · exact fun k u hu hk => h.awake k u hu (hsub.subset hk)

/-- The steps of a thread in `msleep` keep the invariant. -/
theorem resume (h : Inv s) {t : τ} {l : SynchLabel τ} {s' : Synch τ}
    (hres : s.resume t = some (l, s')) : Inv s' := by
  unfold Synch.resume at hres
  split at hres
  next chan hpc =>
    simp only [Option.ite_none_right_eq_some, Option.some.injEq] at hres
    obtain ⟨hawake, -, rfl⟩ := hres
    exact h.setPc_idle fun k => h.awake k t hawake
  next chan hpc =>
    simp only [Option.ite_none_right_eq_some, Option.some.injEq] at hres
    obtain ⟨-, -, rfl⟩ := hres
    exact h.setPc_chan (by simp [hpc, SleepPc.chan])
  next chan hpc =>
    split_ifs at hres with hawake hc
    · cases hres
      exact h.setPc_idle fun k => h.awake k t hawake
    · cases hres
      exact h.setPc_chan (by simp [hpc, SleepPc.chan])
    · cases hres
      -- a thread on the null channel never inserted a record
      refine h.setPc_idle fun k hk => ?_
      have hk' := h.chan_eq k t hk
      simp only [hpc, SleepPc.chan, Option.some.injEq] at hk'
      exact h.key_ne k t hk (by omega)
  next chan hpc =>
    cases hres
    exact h.remove hpc
  next => simp at hres

/-- **Every step keeps the invariant.** -/
theorem step (h : Inv s) {a : SynchAction τ} {l : SynchLabel τ} {s' : Synch τ}
    (hexec : s.exec a = some (l, s')) : Inv s' := by
  cases a with
  | msleep t chan timo =>
      simp only [exec, Option.ite_none_right_eq_some, Option.some.injEq] at hexec
      obtain ⟨ht, -, rfl⟩ := hexec
      exact h.msleep ht chan timo
  | expire t =>
      simp only [exec] at hexec
      split at hexec
      · cases hexec
        exact ⟨h.chan_eq, h.key_ne, h.nodup, h.awake⟩
      · simp at hexec
  | resume t => exact h.resume hexec
  | wakeup chan =>
      rw [← (Prod.mk.inj (Option.some.inj hexec)).2]
      exact h.wakeup chan
  | wakeupOne chan =>
      rw [← (Prod.mk.inj (Option.some.inj hexec)).2]
      exact h.wakeupOne chan

end Inv

end Synch

/-- `msleep`, `wakeup` and `wakeup_one` by threads `τ`. -/
def synch (τ : Type*) [DecidableEq τ] : System (Synch τ) (SynchLabel τ) where
  init s := s = Synch.init
  step s l s' := ∃ a, s.exec a = some (l, s')

/-- In every reachable state the invariant holds; in particular a thread that has returned
from `msleep` has no record on `_evlist`. -/
theorem Synch.inv_reachable [DecidableEq τ] {s : Synch τ} (hs : Reachable (synch τ) s) :
    s.Inv := by
  refine Inductive.reachable ⟨fun s hs => ?_, fun s l s' h hstep => ?_⟩ hs
  · rw [hs]
    exact Synch.inv_init
  · obtain ⟨a, hexec⟩ := hstep
    exact h.step hexec

/-- **`wakeup_one` on the wrong channel, and a lost wakeup.**  Thread `0` sleeps on channel `2`
without a timeout; `wakeup_one(1)` erases and wakes its record, and `msleep` returns `0`,
though no wakeup was called on channel `2`.  And thread `0` sleeps on channel `1` with a
timeout; the timer expires and it finds `_awake` unset; `wakeup_one(1)` then erases and wakes
its record; `msleep` returns `EWOULDBLOCK`. -/
theorem synch_wakeup_one_wrong_channel_and_lost :
    (∃ s, Exec (synch (Fin 2)) Synch.init
        [.slept 0 2, .wokeOne 1 (some (2, 0)), .returned 0 0] s) ∧
    ∃ s, Exec (synch (Fin 2)) Synch.init
        [.slept 0 1, .internal, .internal, .internal, .wokeOne 1 (some (1, 0)),
          .returned 0 EWOULDBLOCK] s :=
  ⟨⟨_, .cons ⟨.msleep 0 2 0, rfl⟩ <| .cons ⟨.wakeupOne 1, rfl⟩ <| .cons ⟨.resume 0, rfl⟩ <|
      .nil _⟩,
    ⟨_, .cons ⟨.msleep 0 1 5, rfl⟩ <| .cons ⟨.expire 0, rfl⟩ <| .cons ⟨.resume 0, rfl⟩ <|
      .cons ⟨.resume 0, rfl⟩ <| .cons ⟨.wakeupOne 1, rfl⟩ <| .cons ⟨.resume 0, rfl⟩ <| .nil _⟩⟩

end Osv.Bsd
