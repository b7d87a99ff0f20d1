import Mathlib
import Osv.Lib.Count
import Osv.Lockfree.Mutex

/-!
# `lockfree::mutex` over every interleaving

The invariant `Mutex.Inv` of every reachable state of `mutex τ`, and what it gives.

**One token.**  `count` counts the holder and every thread between the `fetch_add(1)` and the
`fetch_add(-1)` of its calls (`count_eq`).  While it is not zero there is exactly one *token*,
and none when it is (`tokens_eq`): the mutex itself, held or about to be taken, or the duty of an
`unlock()` to wake a waiter, carried by the unlocker, left in `handoff`, taken back by a
compare-exchange, or passed to a woken record.  Mutual exclusion, the single consumer of the
wait queue and the asserts of `lock()` and `unlock()` all follow from the count of tokens.

**Records in one place.**  A record that sleeps on the mutex and was not woken is on the wait
queue once, or in the hand of one thread, to be pushed or woken (`places`); records on the
queue or in a hand are never woken twice.

**Responsibility hand-off.**  A non-zero `handoff` left while records are queued is still to be
looked at by a `lock()`, a `send_lock()` or the `unlock()` that left it (`rho`).  In a state
where no call is half-way, this is what leaves no sleeper behind: `mutex_no_lost_wakeup`.

`Inv.move` covers every step that moves one thread's pc and may change `count`; the other steps
are one lemma per shape: a wake, a take of the mutex, a take of the handoff, a pop and a push.
-/

namespace Osv.Lockfree

open Transition

namespace Mutex

variable {τ : Type*}

/-! ## What a thread carries

Each pc is read by a few classifiers.  Their equations are `grind` rules: the lemmas below split
the pc into its constructors and `grind` reads the classifiers off each one. -/

namespace Proc

/-- How often the thread stands in `count` besides holding the mutex: from the `fetch_add(1)` of
`lock()` on, from `try_lock()`'s increment, until `unlock()`'s `fetch_add(-1)`, and once for a
record handed to `send_lock`, counted for the thread asleep on it. -/
@[grind] def reg : Proc τ → ℕ
  | .lock _ | .unlock .dec | .tryLock .set | .parked true => 1
  | _ => 0

/-- The token the thread carries, `w` telling whether its record was woken: the mutex it is
about to take, the duty to wake a waiter, or, for a record that sleeps, having been woken. -/
@[grind] def tok : Proc τ → Bool → ℕ
  | .lock .set, _ | .unlock .dec, _ | .unlock .pop, _ | .unlock (.wake _), _ | .unlock .seq, _
  | .unlock (.store _), _ | .tryLock .add, _ | .tryLock .set, _ | .sendLock _ .wakeNow, _
  | .sendLock _ .pop, _ | .sendLock _ (.wake _), _ => 1
  | .lock .pop, w | .lock (.wake _), w => 1 + w.toNat
  | .lock .handoffLoad, w | .lock (.emptyCheck _), w | .lock (.cas _), w | .lock .wait, w
  | .parked true, w => w.toNat
  | _, _ => 0

/-- The thread's record sleeps on the mutex unless it was woken: the thread is in `lock()` past
its `push`, or asleep on a condvar record handed to `send_lock`. -/
@[grind] def waiting : Proc τ → Bool
  | .lock .handoffLoad | .lock (.emptyCheck _) | .lock (.cas _) | .lock .pop | .lock (.wake _)
  | .lock .wait | .parked true => true
  | _ => false

/-- The record the thread has in hand: popped, to be woken, or given to `send_lock`. -/
@[grind] def hand : Proc τ → Option τ
  | .lock (.wake o) | .unlock (.wake o) | .sendLock _ (.wake o) | .sendLock o .wakeNow
  | .sendLock o .push => some o
  | _ => none

/-- The thread will still look at the handoff `h`: it is about to load `handoff`, or it loaded
`h` and is about to check the queue or take `h` back. -/
@[grind] def Checks (h : UInt32) : Proc τ → Prop
  | .lock .handoffLoad | .sendLock _ .handoffLoad => True
  | .lock (.emptyCheck o) | .lock (.cas o) | .sendLock _ (.emptyCheck o) | .sendLock _ (.cas o)
  | .unlock (.emptyCheck o) | .unlock (.cas o) => o = h
  | _ => False

/-- What the pc of `t` keeps is consistent: a handoff value kept across steps is not zero, and
a record `t` popped in `lock()` is another thread's. -/
@[grind] def PcOk (t : τ) : Proc τ → Prop
  | .lock (.emptyCheck o) | .lock (.cas o) | .tryLock (.cas o) | .sendLock _ (.emptyCheck o)
  | .sendLock _ (.cas o) | .unlock (.store o) | .unlock (.emptyCheck o) | .unlock (.cas o) => o ≠ 0
  | .lock (.wake o) => o ≠ t
  | _ => True

/-- About to `pop()` the wait queue. -/
@[grind] def atPop : Proc τ → Bool
  | .lock .pop | .unlock .pop | .sendLock _ .pop => true
  | _ => false

/-- A pc only the holder reaches: a recursive `lock()` about to undo its increment, or the last
`unlock()` about to clear `owner`. -/
@[grind] def byHolder : Proc τ → Bool
  | .lock .undo | .unlock .ownerClear => true
  | _ => false

/-- The record `send_lock(wr)` has in hand before it is queued or woken. -/
@[grind] def sending : Proc τ → Option τ
  | .sendLock wr .wakeNow | .sendLock wr .push => some wr
  | _ => none

theorem tok_true_of_waiting {p : Proc τ} (hw : p.waiting = true) (h0 : p.tok false = 0) :
    p.tok true = 1 := by
  cases p with
  | lock pc => cases pc <;> grind
  | parked b => cases b <;> grind
  | _ => simp [waiting] at hw

/-- The only thread that has its own kind of record in hand while sleeping is one in `lock()`
that popped another's. -/
theorem eq_wake_of_hand {p : Proc τ} {o : τ} (hh : p.hand = some o) (hw : p.waiting = true) :
    p = .lock (.wake o) := by
  cases p with
  | lock pc => cases pc <;> grind
  | parked b => simp [hand] at hh
  | _ => simp [waiting] at hw

/-- A thread with a popped record in hand carries the token. -/
theorem one_le_tok_of_hand {p : Proc τ} {o : τ} (hh : p.hand = some o) (hs : p.sending = none)
    (w : Bool) : 1 ≤ p.tok w := by
  cases p with
  | lock pc => cases pc <;> grind
  | unlock pc => cases pc <;> grind
  | sendLock wr pc => cases pc <;> grind
  | _ => simp [hand] at hh

theorem hand_of_sending {p : Proc τ} {r : τ} (h : p.sending = some r) : p.hand = some r := by
  cases p with
  | sendLock wr pc => cases pc <;> grind
  | _ => simp [sending] at h

/-- A sleeping record that was woken is the token. -/
theorem one_le_tok_true_of_waiting {p : Proc τ} (hw : p.waiting = true) : 1 ≤ p.tok true := by
  cases p with
  | lock pc => cases pc <;> grind
  | parked b => cases b <;> grind
  | _ => simp [waiting] at hw

/-- A thread whose record sleeps on the mutex stands in `count`. -/
theorem reg_of_waiting {p : Proc τ} (hw : p.waiting = true) : p.reg = 1 := by
  cases p with
  | lock pc => rfl
  | parked b => cases b <;> grind
  | _ => simp [waiting] at hw

theorem one_le_tok_of_atPop {p : Proc τ} (hp : p.atPop = true) (w : Bool) : 1 ≤ p.tok w := by
  cases p with
  | lock pc => cases pc <;> grind
  | unlock pc => cases pc <;> grind
  | sendLock wr pc => cases pc <;> grind
  | _ => simp [atPop] at hp

end Proc

/-! ## Shares of a state -/

/-- A thread's share of `count`. -/
def regs (s : Mutex τ) (t : τ) : ℕ := (s.held t).toNat + (s.proc t).reg

/-- A thread's token: holding the mutex, or what its pc and its record carry. -/
def tok (s : Mutex τ) (t : τ) : ℕ := (s.held t).toNat + (s.proc t).tok (s.woken t)

/-- The token left in `handoff` by an `unlock()` that found nobody to wake. -/
def handoffTok (s : Mutex τ) : ℕ := if s.handoff = 0 then 0 else 1

/-- The record of `r` sleeps on the mutex and was not woken. -/
def asleep (s : Mutex τ) (r : τ) : Bool := (s.proc r).waiting && !s.woken r

/-- The threads' tokens and the handoff's. -/
def tokens [Fintype τ] (s : Mutex τ) : ℕ := (∑ t, s.tok t) + s.handoffTok

/-- Where the record of `r` is: the times it is on the wait queue and in a thread's hand. -/
def place [Fintype τ] [DecidableEq τ] (s : Mutex τ) (r : τ) : ℕ :=
  s.waitqueue.count r + Count.num (· = some r) fun t => (s.proc t).hand

/-! ## Field lemmas -/

section fields

variable [DecidableEq τ] (s : Mutex τ) (t o : τ) (p : Proc τ)

@[simp] theorem setProc_proc : (s.setProc t p).proc = Function.update s.proc t p := rfl
@[simp] theorem wakeRecord_count : (s.wakeRecord t o p).count = s.count := rfl
@[simp] theorem wakeRecord_depth : (s.wakeRecord t o p).depth = s.depth := rfl
@[simp] theorem wakeRecord_owner : (s.wakeRecord t o p).owner = s.owner := rfl
@[simp] theorem wakeRecord_waitqueue : (s.wakeRecord t o p).waitqueue = s.waitqueue := rfl
@[simp] theorem wakeRecord_handoff : (s.wakeRecord t o p).handoff = s.handoff := rfl
@[simp] theorem wakeRecord_proc : (s.wakeRecord t o p).proc = Function.update s.proc t p := rfl
@[simp] theorem wakeRecord_woken :
    (s.wakeRecord t o p).woken = Function.update s.woken o true := rfl
@[simp] theorem wakeRecord_held : (s.wakeRecord t o p).held = s.held := rfl
@[simp] theorem take_count : (s.take t).count = s.count := rfl
@[simp] theorem take_depth : (s.take t).depth = 1 := rfl
@[simp] theorem take_owner : (s.take t).owner = some t := rfl
@[simp] theorem take_waitqueue : (s.take t).waitqueue = s.waitqueue := rfl
@[simp] theorem take_handoff : (s.take t).handoff = s.handoff := rfl
@[simp] theorem take_proc : (s.take t).proc = Function.update s.proc t .idle := rfl
@[simp] theorem take_woken : (s.take t).woken = s.woken := rfl
@[simp] theorem take_held : (s.take t).held = Function.update s.held t true := rfl

end fields

/-- The invariant of `lockfree::mutex` and its threads. -/
structure Inv [Fintype τ] [DecidableEq τ] (s : Mutex τ) : Prop where
  count_eq : s.count = ↑(∑ t, s.regs t)
  tokens_eq : s.tokens = if s.count = 0 then 0 else 1
  places : ∀ r, s.place r = (s.asleep r).toNat
  owner_held : ∀ t, s.owner = some t ↔ s.held t = true
  /-- The holder's `depth` is not zero until its last `unlock()` took it to zero. -/
  depth_pos : ∀ t, s.held t = true → s.proc t ≠ .unlock .ownerClear → s.depth ≠ 0
  /-- A recursive `lock()` and the last `unlock()` are by the holder. -/
  holder_pc : ∀ t, (s.proc t).byHolder = true → s.held t = true
  /-- The record in the hand of `send_lock` is one whose thread sleeps on it. -/
  sending_parked : ∀ t r, (s.proc t).sending = some r → s.proc r = .parked true
  /-- A condvar's record that is not yet handed to the mutex was never woken by it. -/
  parked_fresh : ∀ t, s.proc t = .parked false → s.woken t = false
  pc_ok : ∀ t, (s.proc t).PcOk t
  /-- RHO: a handoff left while records are queued is still to be looked at. -/
  rho : s.handoff ≠ 0 → s.waitqueue ≠ [] → ∃ t, (s.proc t).Checks s.handoff

variable [Fintype τ] [DecidableEq τ]

theorem init_inv : (init : Mutex τ).Inv where
  count_eq := by simp [init, regs, Proc.reg]
  tokens_eq := by simp [init, tokens, tok, handoffTok, Proc.tok]
  places r := by simp [init, place, asleep, Proc.waiting, Proc.hand, Count.num]
  owner_held t := by simp [init]
  depth_pos t := by simp [init]
  holder_pc t := by simp [init, Proc.byHolder]
  sending_parked t r := by simp [init, Proc.sending]
  parked_fresh t := by simp [init]
  pc_ok t := by simp [init, Proc.PcOk]
  rho := by simp [init]

/-! ## What the invariant gives -/

theorem one_le_num_hand {s : Mutex τ} {t r : τ} (ht : (s.proc t).hand = some r) :
    1 ≤ Count.num (· = some r) fun u => (s.proc u).hand :=
  (Count.num_pos (P := (· = some r)) (f := fun u => (s.proc u).hand)).2 ⟨t, ht⟩

namespace Inv

variable {s : Mutex τ} (h : s.Inv)
include h

theorem count_nonneg : 0 ≤ s.count := by
  rw [h.count_eq]
  exact Int.natCast_nonneg _

theorem regs_le_count (t : τ) : (s.regs t : ℤ) ≤ s.count := by
  rw [h.count_eq]
  exact_mod_cast Finset.single_le_sum (fun _ _ => Nat.zero_le _) (Finset.mem_univ t)

theorem tokens_le_one : s.tokens ≤ 1 := by
  rw [h.tokens_eq]
  split <;> omega

theorem tok_add_handoff (t : τ) : s.tok t + s.handoffTok ≤ 1 := by
  have hle : s.tok t ≤ ∑ u, s.tok u :=
    Finset.single_le_sum (fun _ _ => Nat.zero_le _) (Finset.mem_univ t)
  have := h.tokens_le_one
  unfold tokens at this
  omega

theorem tok_add_tok {t u : τ} (htu : t ≠ u) : s.tok t + s.tok u ≤ 1 := by
  have hle := Count.add_le_sum (f := s.tok) htu
  have := h.tokens_le_one
  unfold tokens at this
  omega

/-- A thread with a token excludes every other. -/
theorem tok_eq_zero_of_tok {t u : τ} (htu : u ≠ t) (ht : 1 ≤ s.tok t) : s.tok u = 0 := by
  have := h.tok_add_tok htu
  omega

/-- A thread with a token excludes a handoff. -/
theorem handoff_eq_zero_of_tok {t : τ} (ht : 1 ≤ s.tok t) : s.handoff = 0 := by
  have := h.tok_add_handoff t
  unfold handoffTok at this
  split_ifs at this with hh
  · exact hh
  · omega

theorem count_ne_zero_of_tok {t : τ} (ht : 1 ≤ s.tok t) : s.count ≠ 0 := by
  intro hc
  have hle : s.tok t ≤ ∑ u, s.tok u :=
    Finset.single_le_sum (fun _ _ => Nat.zero_le _) (Finset.mem_univ t)
  have := h.tokens_eq
  rw [if_pos hc] at this
  unfold tokens at this
  omega

theorem held_eq_false_of_tok {t u : τ} (htu : u ≠ t) (ht : 1 ≤ s.tok t) :
    s.held u = false := by
  have := h.tok_eq_zero_of_tok htu ht
  unfold tok at this
  cases hu : s.held u <;> simp_all

theorem place_le_one (r : τ) : s.place r ≤ 1 := by
  rw [h.places r]
  cases s.asleep r <;> decide

theorem asleep_of_mem {r : τ} (hr : r ∈ s.waitqueue) : s.asleep r = true := by
  have hpos : 0 < s.place r := by
    unfold place
    have := List.count_pos_iff.2 hr
    omega
  rw [h.places r] at hpos
  cases hr : s.asleep r <;> simp_all

theorem nodup : s.waitqueue.Nodup := by
  refine List.nodup_iff_count_le_one.2 fun r => ?_
  have := h.place_le_one r
  unfold place at this
  omega

theorem asleep_of_hand {t r : τ} (ht : (s.proc t).hand = some r) : s.asleep r = true := by
  have hpos : 0 < s.place r := by
    unfold place
    have := one_le_num_hand ht
    omega
  rw [h.places r] at hpos
  cases hr : s.asleep r <;> simp_all

theorem not_mem_of_hand {t r : τ} (ht : (s.proc t).hand = some r) : r ∉ s.waitqueue := by
  intro hr
  have hq := List.count_pos_iff.2 hr
  have hn := one_le_num_hand ht
  have := h.place_le_one r
  unfold place at this
  omega

/-- A thread whose pc carries the token does not also hold the mutex. -/
theorem held_eq_false_of_proc {t : τ} {p : Proc τ} (hp : s.proc t = p)
    (htok : 1 ≤ p.tok (s.woken t)) : s.held t = false := by
  have := h.tok_add_handoff t
  unfold tok at this
  rw [hp] at this
  cases hb : s.held t <;> simp_all
  omega

/-- A sleeping record is on the queue or in a hand. -/
theorem placed {r : τ} (hr : s.asleep r = true) :
    r ∈ s.waitqueue ∨ ∃ t, (s.proc t).hand = some r := by
  have hpos : 0 < s.place r := by rw [h.places r, hr]; decide
  unfold place at hpos
  by_cases hq : 0 < s.waitqueue.count r
  · exact .inl (List.count_pos_iff.1 hq)
  · exact .inr ((Count.num_pos (P := (· = some r)) (f := fun u => (s.proc u).hand)).1 (by omega))

/-- Only a record parked on a condvar is in the hand of a `send_lock`. -/
theorem not_sent {t : τ} (ht : s.proc t ≠ .parked true) : ∀ u, (s.proc u).sending ≠ some t :=
  fun u hu => ht (h.sending_parked u t hu)

/-! The per-thread parts of the invariant after `t` moves to `p`, with `held`, `woken` and
`depth` as they were. -/

theorem depth_pos_update {t : τ} (ht : s.proc t ≠ .unlock .ownerClear) (p : Proc τ) :
    ∀ u, s.held u = true → Function.update s.proc t p u ≠ .unlock .ownerClear →
      s.depth ≠ 0 :=
  (Function.forall_update_iff s.proc
      fun u q => s.held u = true → q ≠ .unlock .ownerClear → s.depth ≠ 0).2
    ⟨fun hh _ => h.depth_pos t hh ht, fun u _ => h.depth_pos u⟩

theorem holder_pc_update {t : τ} {p : Proc τ} (hp : p.byHolder = false ∨ s.held t = true) :
    ∀ u, (Function.update s.proc t p u).byHolder = true → s.held u = true :=
  (Function.forall_update_iff s.proc fun u q => q.byHolder = true → s.held u = true).2
    ⟨fun hb => hp.resolve_left (by simp [hb]), fun u _ => h.holder_pc u⟩

theorem parked_fresh_update {t : τ} {p : Proc τ} (hp : p ≠ .parked false) :
    ∀ u, Function.update s.proc t p u = .parked false → s.woken u = false :=
  (Function.forall_update_iff s.proc fun u q => q = .parked false → s.woken u = false).2
    ⟨fun he => absurd he hp, fun u _ => h.parked_fresh u⟩

theorem pc_ok_update {t : τ} {p : Proc τ} (hp : p.PcOk t) :
    ∀ u, (Function.update s.proc t p u).PcOk u :=
  (Function.forall_update_iff s.proc fun u q => q.PcOk u).2 ⟨hp, fun u _ => h.pc_ok u⟩

end Inv


/-! ## How a step changes the shares -/

/-- The count after a step that changed the share of `t` only. -/
theorem count_eq_of_step {s s' : Mutex τ} (t : τ) (hs : s.count = ↑(∑ u, s.regs u))
    (hoff : ∀ u, u ≠ t → s'.regs u = s.regs u)
    (ht : (s'.regs t : ℤ) + s.count = s.regs t + s'.count) :
    s'.count = ↑(∑ u, s'.regs u) := by
  have := Count.sum_eq_of_eq_off t hoff
  omega

/-- The count after a step that changed the shares of `t` and `o`. -/
theorem count_eq_of_step₂ {s s' : Mutex τ} {t o : τ} (hto : t ≠ o)
    (hs : s.count = ↑(∑ u, s.regs u))
    (hoff : ∀ u, u ≠ t → u ≠ o → s'.regs u = s.regs u)
    (ht : (s'.regs t : ℤ) + s'.regs o + s.count = s.regs t + s.regs o + s'.count) :
    s'.count = ↑(∑ u, s'.regs u) := by
  have := Count.sum_eq_of_eq_off₂ hto hoff
  omega

/-- The tokens after a step that changed the token of `t` and perhaps the handoff. -/
theorem tokens_eq_of_step {s s' : Mutex τ} (t : τ) (hs : s.tokens = if s.count = 0 then 0 else 1)
    (hoff : ∀ u, u ≠ t → s'.tok u = s.tok u)
    (ht : s'.tok t + s'.handoffTok + (if s.count = 0 then 0 else 1) =
      s.tok t + s.handoffTok + (if s'.count = 0 then 0 else 1)) :
    s'.tokens = if s'.count = 0 then 0 else 1 := by
  have := Count.sum_eq_of_eq_off t hoff
  unfold tokens at hs ⊢
  omega

/-- The tokens after a step that changed the tokens of `t` and `o`. -/
theorem tokens_eq_of_step₂ {s s' : Mutex τ} {t o : τ} (hto : t ≠ o)
    (hs : s.tokens = if s.count = 0 then 0 else 1)
    (hoff : ∀ u, u ≠ t → u ≠ o → s'.tok u = s.tok u)
    (ht : s'.tok t + s'.tok o + s'.handoffTok + (if s.count = 0 then 0 else 1) =
      s.tok t + s.tok o + s.handoffTok + (if s'.count = 0 then 0 else 1)) :
    s'.tokens = if s'.count = 0 then 0 else 1 := by
  have := Count.sum_eq_of_eq_off₂ hto hoff
  unfold tokens at hs ⊢
  omega

/-- The hands after `t` moves to `p`: one record more in hand if `p` holds it, one less if
`t` held it. -/
theorem num_hand_update (f : τ → Proc τ) (t : τ) (p : Proc τ) (r : τ) :
    Count.num (· = some r) (fun u => (Function.update f t p u).hand) +
        (if (f t).hand = some r then 1 else 0) =
      Count.num (· = some r) (fun u => (f u).hand) + (if p.hand = some r then 1 else 0) := by
  have hf : (fun u => (Function.update f t p u).hand) =
      Function.update (fun u => (f u).hand) t p.hand := by
    funext u
    by_cases hu : u = t
    · subst hu
      simp
    · simp [Function.update_of_ne hu]
  rw [hf]
  exact Count.num_update _ _ t p.hand

theorem num_hand_update_stay (f : τ → Proc τ) {t : τ} {p : Proc τ} (hp : p.hand = (f t).hand)
    (r : τ) :
    Count.num (· = some r) (fun u => (Function.update f t p u).hand) =
      Count.num (· = some r) (fun u => (f u).hand) := by
  have := num_hand_update f t p r
  rw [hp] at this
  omega

omit [Fintype τ] in
/-- The records in the hands of `send_lock` after `t` moves to a pc that sends none, when no
sender has `t`'s record. -/
theorem sending_parked_update {f : τ → Proc τ}
    (hf : ∀ u r, (f u).sending = some r → f r = .parked true) {t : τ} {p : Proc τ}
    (hsend : p.sending = none) (ht : ∀ u, (f u).sending ≠ some t) :
    ∀ u r, (Function.update f t p u).sending = some r →
      Function.update f t p r = .parked true := by
  intro u r hu
  by_cases hut : u = t
  · subst hut
    simp [hsend] at hu
  · rw [Function.update_of_ne hut] at hu
    have hrt : r ≠ t := by
      rintro rfl
      exact ht u hu
    rw [Function.update_of_ne hrt]
    exact hf u r hu

/-! ## Steps of one thread -/

/-- **A move of one thread.**  `t` goes from `p` to `p'` and `count` becomes `c`, nothing else
changing.  The hypotheses are what the move keeps: its share of the count and of the tokens,
whether its record sleeps, its hand, and the checkers of the handoff. -/
theorem Inv.move {s : Mutex τ} (h : s.Inv) {t : τ} {p p' : Proc τ} {c : ℤ} {hd : UInt32}
    (hp : s.proc t = p) (hreg : (p'.reg : ℤ) + s.count = p.reg + c)
    (htok : p'.tok (s.woken t) + (if hd = 0 then 0 else 1) + (if s.count = 0 then 0 else 1) =
      p.tok (s.woken t) + (if s.handoff = 0 then 0 else 1) + (if c = 0 then 0 else 1))
    (hwait : p'.waiting = p.waiting ∨ s.woken t = true) (hhand : p'.hand = p.hand)
    (hok : p'.PcOk t) (hheld : p'.byHolder = false ∨ s.held t = true)
    (hsend : p'.sending = none)
    (hpc : (p' == .parked false || p == .parked true || p == .unlock .ownerClear) = false)
    (hrho : hd ≠ 0 → s.waitqueue ≠ [] →
      p'.Checks hd ∨ hd = s.handoff ∧ (p.Checks s.handoff → p'.Checks s.handoff)) :
    ({ s with count := c, handoff := hd, proc := Function.update s.proc t p' } : Mutex τ).Inv := by
  -- a move neither puts `t` to sleep on a condvar, nor wakes a sleeper, nor clears `owner`
  have hpc' := hpc
  simp only [Bool.or_eq_false_iff, beq_eq_false_iff_ne] at hpc'
  obtain ⟨⟨hparked, hsent⟩, hclear⟩ := hpc'
  exact {
  count_eq := count_eq_of_step t h.count_eq (fun u hu => by simp [regs, Function.update_of_ne hu])
    (by simp only [regs, Function.update_self, hp]; omega)
  tokens_eq := tokens_eq_of_step t h.tokens_eq (fun u hu => by simp [tok, Function.update_of_ne hu])
    (by simp only [tok, Function.update_self, hp, handoffTok]; omega)
  places := fun r => by
    have hnum := num_hand_update_stay s.proc (t := t) (hp ▸ hhand) r
    have hsleep : ({ s with count := c, handoff := hd, proc := Function.update s.proc t p' } :
        Mutex τ).asleep r = s.asleep r := by
      by_cases hr : r = t
      · subst hr
        rcases hwait with hw | hw <;> simp [asleep, hp, hw]
      · simp [asleep, Function.update_of_ne hr]
    rw [hsleep, ← h.places r]
    simp only [place, hnum]
  owner_held := h.owner_held
  depth_pos := h.depth_pos_update (hp ▸ hclear) p'
  holder_pc := h.holder_pc_update hheld
  sending_parked := sending_parked_update h.sending_parked hsend (h.not_sent (hp ▸ hsent))
  parked_fresh := h.parked_fresh_update hparked
  pc_ok := h.pc_ok_update hok
  rho := fun hh hq => by
    rcases hrho hh hq with hc | ⟨rfl, hc⟩
    · exact ⟨t, by simpa using hc⟩
    obtain ⟨u, hu⟩ := h.rho hh hq
    by_cases hut : u = t
    · subst hut
      exact ⟨u, by simpa using hc (hp ▸ hu)⟩
    · exact ⟨u, by simpa [Function.update_of_ne hut] using hu⟩ }

/-- **A move of one thread's pc** that keeps its shares. -/
theorem Inv.setProc {s : Mutex τ} (h : s.Inv) {t : τ} {p p' : Proc τ} (hp : s.proc t = p)
    (hreg : p'.reg = p.reg) (htok : p'.tok (s.woken t) = p.tok (s.woken t))
    (hwait : p'.waiting = p.waiting ∨ s.woken t = true) (hhand : p'.hand = p.hand)
    (hok : p'.PcOk t) (hheld : p'.byHolder = false ∨ s.held t = true)
    (hsend : p'.sending = none)
    (hpc : (p' == .parked false || p == .parked true || p == .unlock .ownerClear) = false)
    (hrho : s.handoff ≠ 0 → s.waitqueue ≠ [] → p.Checks s.handoff → p'.Checks s.handoff) :
    (s.setProc t p').Inv :=
  h.move hp (by rw [hreg]) (by rw [htok]) hwait hhand hok hheld hsend hpc
    fun hh hq => .inr ⟨rfl, hrho hh hq⟩

/-- A step that only changes `sequence` keeps the invariant, which does not read it. -/
theorem Inv.withSequence {s : Mutex τ} (h : s.Inv) (q : UInt32) :
    ({ s with sequence := q } : Mutex τ).Inv :=
  ⟨h.count_eq, h.tokens_eq, h.places, h.owner_held, h.depth_pos, h.holder_pc, h.sending_parked,
    h.parked_fresh, h.pc_ok, h.rho⟩

/-- A deeper recursion of the holder keeps the invariant. -/
theorem Inv.depthSucc {s : Mutex τ} (h : s.Inv) :
    ({ s with depth := s.depth + 1 } : Mutex τ).Inv :=
  ⟨h.count_eq, h.tokens_eq, h.places, h.owner_held, fun _ _ _ => Nat.succ_ne_zero _,
    h.holder_pc, h.sending_parked, h.parked_fresh, h.pc_ok, h.rho⟩


/-! ## Steps that move a record or the mutex -/

/-- **`other->wake()`.**  `t`, carrying the token, wakes the record `o` it has in hand and goes
on at `p'` without it: the token passes to the woken record. -/
theorem Inv.wake {s : Mutex τ} (h : s.Inv) {t o : τ} {p p' : Proc τ} (hp : s.proc t = p)
    (hhand : p.hand = some o) (htok : p.tok (s.woken t) = 1) (htok' : p'.tok (s.woken t) = 0)
    (hp' : p' = .lock .wait ∨ p' = .idle) (hreg : p'.reg = p.reg)
    (hwait : p'.waiting = p.waiting) : (s.wakeRecord t o p').Inv := by
  have hao : s.asleep o = true := h.asleep_of_hand (hp ▸ hhand)
  have hwo : (s.proc o).waiting = true ∧ s.woken o = false := by simpa [asleep] using hao
  -- a record in hand that sleeps in `lock()` was popped by another thread
  have hot : o ≠ t := by
    rintro rfl
    have hpc := h.pc_ok o
    rw [hp, Proc.eq_wake_of_hand hhand (hp ▸ hwo.1)] at hpc
    exact hpc rfl
  have htt : 1 ≤ s.tok t := by simp [tok, hp, htok]
  have hto : s.tok o = 0 := h.tok_eq_zero_of_tok hot htt
  have hheldo : s.held o = false := h.held_eq_false_of_tok hot htt
  have hwoken : (s.proc o).tok true = 1 :=
    Proc.tok_true_of_waiting hwo.1 (by simpa [tok, hheldo, hwo.2] using hto)
  have hh'' : p'.hand = none ∧ p'.byHolder = false ∧ p'.sending = none ∧
      p' ≠ .parked false ∧
      p'.PcOk t := by
    rcases hp' with rfl | rfl <;> grind
  obtain ⟨hhand', hby, hsend, hpark, hok⟩ := hh''
  have hclear : p ≠ .unlock .ownerClear := by
    rintro rfl
    simp [Proc.hand] at hhand
  constructor
  case count_eq =>
    exact count_eq_of_step t h.count_eq (fun u hu => by simp [regs, Function.update_of_ne hu])
      (by simp [regs, hp, hreg])
  case tokens_eq =>
    refine tokens_eq_of_step₂ (Ne.symm hot) h.tokens_eq
      (fun u hut huo => by simp [tok, Function.update_of_ne hut, Function.update_of_ne huo]) ?_
    have h₁ : (s.wakeRecord t o p').tok t = (s.held t).toNat := by
      simp [tok, Function.update_of_ne (Ne.symm hot), htok']
    have h₂ : (s.wakeRecord t o p').tok o = 1 := by
      simp [tok, Function.update_of_ne hot, hheldo, hwoken]
    have h₃ : s.tok t = (s.held t).toNat + 1 := by simp [tok, hp, htok]
    have hc : (s.wakeRecord t o p').count = s.count := rfl
    have hh : (s.wakeRecord t o p').handoffTok = s.handoffTok := rfl
    rw [h₁, h₂, h₃, hto, hc, hh]
  case places =>
    intro r
    have hnum := num_hand_update s.proc t p' r
    rw [hp, hhand, hhand'] at hnum
    have hold := h.places r
    unfold place at hold ⊢
    simp only [wakeRecord_proc, wakeRecord_waitqueue]
    by_cases hro : r = o
    · subst hro
      have hsl : (s.wakeRecord t r p').asleep r = false := by simp [asleep]
      rw [hsl]
      rw [hao] at hold
      simp at hnum hold ⊢
      omega
    · have hsl : (s.wakeRecord t o p').asleep r = s.asleep r := by
        by_cases hrt : r = t
        · subst hrt
          simp [asleep, hp, hwait, Function.update_of_ne hro]
        · simp [asleep, Function.update_of_ne hrt, Function.update_of_ne hro]
      rw [hsl, ← hold]
      simp [Ne.symm hro] at hnum
      omega
  case owner_held => exact h.owner_held
  case depth_pos => exact h.depth_pos_update (hp ▸ hclear) _
  case holder_pc => exact h.holder_pc_update (.inl hby)
  case sending_parked =>
    refine sending_parked_update h.sending_parked hsend (h.not_sent ?_)
    rintro hpt
    rw [hp] at hpt
    subst hpt
    simp [Proc.hand] at hhand
  case parked_fresh =>
    intro u hu
    simp only [wakeRecord_proc, wakeRecord_woken] at hu ⊢
    by_cases hut : u = t
    · subst hut
      simp at hu
      exact absurd hu hpark
    · rw [Function.update_of_ne hut] at hu
      have huo : u ≠ o := by
        rintro rfl
        rw [hu] at hwo
        simp [Proc.waiting] at hwo
      rw [Function.update_of_ne huo]
      exact h.parked_fresh u hu
  case pc_ok => exact h.pc_ok_update hok
  case rho =>
    intro hh
    exact absurd (h.handoff_eq_zero_of_tok htt) hh

/-- **The mutex is taken** by `t`, `owner.store(current)` and `depth = 1`, from a pc that stands
in the count and carries the token. -/
theorem Inv.take {s : Mutex τ} (h : s.Inv) {t : τ} {p : Proc τ} (hp : s.proc t = p)
    (hreg : p.reg = 1) (htok : p.tok (s.woken t) = 1)
    (hwait : p.waiting = false ∨ s.woken t = true) (hhand : p.hand = none) : (s.take t).Inv := by
  have htt : 1 ≤ s.tok t := by simp [tok, hp, htok]
  have hheldt : s.held t = false := h.held_eq_false_of_proc hp (by omega)
  constructor
  case count_eq =>
    refine count_eq_of_step t h.count_eq (fun u hu => by simp [regs, Function.update_of_ne hu]) ?_
    simp only [regs, take_held, take_proc, take_count, Function.update_self, hp, hreg, hheldt]
    simp [Proc.reg]
  case tokens_eq =>
    refine tokens_eq_of_step t h.tokens_eq (fun u hu => by simp [tok, Function.update_of_ne hu]) ?_
    have hc : (s.take t).count = s.count := rfl
    have hh : (s.take t).handoffTok = s.handoffTok := rfl
    have h₁ : (s.take t).tok t = 1 := by simp [tok, Proc.tok]
    have h₂ : s.tok t = 1 := by simp [tok, hp, htok, hheldt]
    rw [hc, hh, h₁, h₂]
  case places =>
    intro r
    have hnum := num_hand_update_stay s.proc (t := t) (p := .idle) (by rw [hp, hhand]; rfl) r
    have hsl : (s.take t).asleep r = s.asleep r := by
      by_cases hrt : r = t
      · subst hrt
        have hidle : (s.take r).asleep r = false := by simp [asleep, Proc.waiting]
        rw [hidle]
        rcases hwait with hw | hw <;> simp [asleep, hp, hw]
      · simp [asleep, Function.update_of_ne hrt]
    rw [hsl, ← h.places r]
    simp only [place, take_proc, take_waitqueue, hnum]
  case owner_held =>
    intro u
    by_cases hut : u = t
    · subst hut
      simp
    · simp [Ne.symm hut, Function.update_of_ne hut, h.held_eq_false_of_tok hut htt]
  case depth_pos => simp
  case holder_pc =>
    intro u hu
    by_cases hut : u = t
    · subst hut
      simp [Proc.byHolder] at hu
    · simp only [take_proc, take_held, Function.update_of_ne hut] at hu ⊢
      exact h.holder_pc u hu
  case sending_parked =>
    -- a record handed to `send_lock` still sleeps, so its thread does not take the mutex
    refine sending_parked_update h.sending_parked rfl fun u hu => ?_
    have hsl := h.asleep_of_hand (Proc.hand_of_sending hu)
    have hr := h.sending_parked u t hu
    rw [hp] at hr
    subst hr
    simp [asleep, hp, Proc.waiting] at hsl
    simp [Proc.waiting, hsl] at hwait
  case parked_fresh => exact h.parked_fresh_update (by rintro ⟨⟩)
  case pc_ok => exact h.pc_ok_update trivial
  case rho =>
    intro hh
    exact absurd (h.handoff_eq_zero_of_tok htt) hh


/-- **`waitqueue.pop()`** of the oldest record `o` by `t`, which carries the token and goes on
at `p'` with `o` in hand. -/
theorem Inv.pop {s : Mutex τ} (h : s.Inv) {t o : τ} {rest : List τ} {p p' : Proc τ}
    (hp : s.proc t = p) (hq : s.waitqueue = o :: rest) (hpop : p.atPop = true)
    (hhand : p.hand = none) (hhand' : p'.hand = some o) (hreg : p'.reg = p.reg)
    (htok : p'.tok (s.woken t) = p.tok (s.woken t)) (hwait : p'.waiting = p.waiting)
    (hok : p'.PcOk t) (hby : p'.byHolder = false) (hsend : p'.sending = none)
    (hpark : p' ≠ .parked false) :
    ({ s with waitqueue := rest, proc := Function.update s.proc t p' } : Mutex τ).Inv := by
  have htt : 1 ≤ s.tok t := by
    have := Proc.one_le_tok_of_atPop hpop (s.woken t)
    simp only [tok, hp]
    omega
  have hao : s.asleep o = true := h.asleep_of_mem (by simp [hq])
  -- a record popped in `lock()` and kept in hand is another thread's
  have hot : o ≠ t := by
    rintro rfl
    have hw : p'.waiting = true := by
      have := hao
      simp only [asleep, hp, Bool.and_eq_true] at this
      rw [hwait]
      exact this.1
    have hpc := hok
    rw [Proc.eq_wake_of_hand hhand' hw] at hpc
    exact hpc rfl
  have hclear : p ≠ .unlock .ownerClear := by
    rintro rfl
    simp [Proc.atPop] at hpop
  constructor
  case count_eq =>
    exact count_eq_of_step t h.count_eq (fun u hu => by simp [regs, Function.update_of_ne hu])
      (by simp [regs, hp, hreg])
  case tokens_eq =>
    exact tokens_eq_of_step t h.tokens_eq (fun u hu => by simp [tok, Function.update_of_ne hu])
      (by simp [tok, hp, htok, handoffTok])
  case places =>
    intro r
    have hnum := num_hand_update s.proc t p' r
    rw [hp, hhand, hhand'] at hnum
    have hold := h.places r
    have hsl : ({ s with waitqueue := rest, proc := Function.update s.proc t p' } :
        Mutex τ).asleep r = s.asleep r := by
      by_cases hrt : r = t
      · subst hrt
        simp [asleep, hp, hwait]
      · simp [asleep, Function.update_of_ne hrt]
    rw [hsl, ← hold]
    unfold place
    rw [hq]
    by_cases hro : o = r
    · subst hro
      simp [List.count_cons_self] at hnum ⊢
      omega
    · simp [List.count_cons_of_ne hro, hro] at hnum ⊢
      omega
  case owner_held => exact h.owner_held
  case depth_pos => exact h.depth_pos_update (hp ▸ hclear) _
  case holder_pc => exact h.holder_pc_update (.inl hby)
  case sending_parked =>
    refine sending_parked_update h.sending_parked hsend (h.not_sent ?_)
    rintro hpt
    rw [hp] at hpt
    subst hpt
    simp [Proc.atPop] at hpop
  case parked_fresh => exact h.parked_fresh_update hpark
  case pc_ok => exact h.pc_ok_update hok
  case rho =>
    intro hh
    exact absurd (h.handoff_eq_zero_of_tok htt) hh

/-- **`lock()` pops its own record**: `other->thread() == current`, and the mutex is `t`'s. -/
theorem Inv.popSelf {s : Mutex τ} (h : s.Inv) {t : τ} {rest : List τ}
    (hp : s.proc t = .lock .pop) (hq : s.waitqueue = t :: rest) :
    ({ s with waitqueue := rest, proc := Function.update s.proc t (.lock .set) } :
      Mutex τ).Inv := by
  have hat : s.asleep t = true := h.asleep_of_mem (by simp [hq])
  have hwt : s.woken t = false := by simpa [asleep, hp, Proc.waiting] using hat
  have htt : 1 ≤ s.tok t := by simp only [tok, hp, Proc.tok]; omega
  constructor
  case count_eq =>
    exact count_eq_of_step t h.count_eq (fun u hu => by simp [regs, Function.update_of_ne hu])
      (by simp [regs, hp, Proc.reg])
  case tokens_eq =>
    exact tokens_eq_of_step t h.tokens_eq (fun u hu => by simp [tok, Function.update_of_ne hu])
      (by simp [tok, hp, hwt, Proc.tok, handoffTok])
  case places =>
    intro r
    have hnum := num_hand_update_stay s.proc (t := t) (p := .lock .set) (by rw [hp]; rfl) r
    have hold := h.places r
    unfold place at hold ⊢
    rw [hq] at hold
    dsimp only
    rw [hnum]
    by_cases hrt : r = t
    · subst hrt
      have hsl : ({ s with waitqueue := rest, proc := Function.update s.proc r (.lock .set) } :
          Mutex τ).asleep r = false := by simp [asleep, Proc.waiting]
      rw [hsl]
      rw [hat, List.count_cons_self] at hold
      simp at hold ⊢
      omega
    · have hsl : ({ s with waitqueue := rest, proc := Function.update s.proc t (.lock .set) } :
          Mutex τ).asleep r = s.asleep r := by simp [asleep, Function.update_of_ne hrt]
      rw [hsl, ← hold, List.count_cons_of_ne (Ne.symm hrt)]
  case owner_held => exact h.owner_held
  case depth_pos => exact h.depth_pos_update (by rw [hp]; rintro ⟨⟩) _
  case holder_pc => exact h.holder_pc_update (.inl rfl)
  case sending_parked =>
    exact sending_parked_update h.sending_parked rfl (h.not_sent (by rw [hp]; rintro ⟨⟩))
  case parked_fresh => exact h.parked_fresh_update (by rintro ⟨⟩)
  case pc_ok => exact h.pc_ok_update trivial
  case rho =>
    intro hh
    exact absurd (h.handoff_eq_zero_of_tok htt) hh


/-- **`waitqueue.push(&waiter)`** in `lock()`: the fresh record of `t` goes on the queue, and `t`
goes on to look at the handoff. -/
theorem Inv.push {s : Mutex τ} (h : s.Inv) {t : τ} (hp : s.proc t = .lock .push) :
    ({ s with
      waitqueue := s.waitqueue ++ [t]
      woken := Function.update s.woken t false
      proc := Function.update s.proc t (.lock .handoffLoad) } : Mutex τ).Inv := by
  -- before the push the record of `t` is nowhere
  have hplace : s.place t = 0 := by rw [h.places t]; simp [asleep, hp, Proc.waiting]
  constructor
  case count_eq =>
    exact count_eq_of_step t h.count_eq (fun u hu => by simp [regs, Function.update_of_ne hu])
      (by simp [regs, hp, Proc.reg])
  case tokens_eq =>
    exact tokens_eq_of_step t h.tokens_eq
      (fun u hu => by simp [tok, Function.update_of_ne hu])
      (by simp [tok, hp, Proc.tok, handoffTok])
  case places =>
    intro r
    have hnum := num_hand_update_stay s.proc (t := t) (p := .lock .handoffLoad) (by rw [hp]; rfl) r
    have hold := h.places r
    unfold place at hold hplace ⊢
    dsimp only
    rw [hnum, List.count_append]
    by_cases hrt : r = t
    · subst hrt
      simp [asleep, Proc.waiting]
      omega
    · have hsl : ({ s with
          waitqueue := s.waitqueue ++ [t]
          woken := Function.update s.woken t false
          proc := Function.update s.proc t (.lock .handoffLoad) } : Mutex τ).asleep r =
          s.asleep r := by simp [asleep, Function.update_of_ne hrt]
      rw [hsl, List.count_singleton]
      simp only [beq_iff_eq, Ne.symm hrt, if_false]
      omega
  case owner_held => exact h.owner_held
  case depth_pos => exact h.depth_pos_update (by rw [hp]; rintro ⟨⟩) _
  case holder_pc => exact h.holder_pc_update (.inl rfl)
  case sending_parked =>
    exact sending_parked_update h.sending_parked rfl (h.not_sent (by rw [hp]; rintro ⟨⟩))
  case parked_fresh =>
    intro u hu
    dsimp only at hu ⊢
    by_cases hut : u = t
    · subst hut
      simp at hu
    · rw [Function.update_of_ne hut] at hu ⊢
      exact h.parked_fresh u hu
  case pc_ok => exact h.pc_ok_update trivial
  case rho =>
    -- `t` itself is about to load the handoff
    intro _ _
    exact ⟨t, by grind⟩

/-- **`waitqueue.push(wr)`** in `send_lock(wr)`: the record of `wr` goes from the hand of `t` to
the queue. -/
theorem Inv.sendPush {s : Mutex τ} (h : s.Inv) {t wr : τ} (hp : s.proc t = .sendLock wr .push) :
    ({ s with
      waitqueue := s.waitqueue ++ [wr]
      proc := Function.update s.proc t (.sendLock wr .handoffLoad) } : Mutex τ).Inv := by
  have hhand : (s.proc t).hand = some wr := by rw [hp]; rfl
  have hwr : s.proc wr = .parked true := h.sending_parked t wr (by rw [hp]; rfl)
  have hwt : wr ≠ t := by
    rintro rfl
    rw [hp] at hwr
    cases hwr
  have hnot : s.waitqueue.count wr = 0 := List.count_eq_zero.2 (h.not_mem_of_hand hhand)
  constructor
  case count_eq =>
    exact count_eq_of_step t h.count_eq (fun u hu => by simp [regs, Function.update_of_ne hu])
      (by simp [regs, hp, Proc.reg])
  case tokens_eq =>
    exact tokens_eq_of_step t h.tokens_eq
      (fun u hu => by simp [tok, Function.update_of_ne hu])
      (by simp [tok, hp, Proc.tok, handoffTok])
  case places =>
    intro r
    have hnum := num_hand_update s.proc t (.sendLock wr .handoffLoad) r
    have hnone : (Proc.sendLock wr .handoffLoad : Proc τ).hand = none := rfl
    rw [hhand, hnone] at hnum
    have hold := h.places r
    have hsl : ({ s with
        waitqueue := s.waitqueue ++ [wr]
        proc := Function.update s.proc t (.sendLock wr .handoffLoad) } : Mutex τ).asleep r =
        s.asleep r := by
      by_cases hrt : r = t
      · subst hrt
        simp [asleep, hp, Proc.waiting]
      · simp [asleep, Function.update_of_ne hrt]
    rw [hsl, ← hold]
    unfold place
    dsimp only
    rw [List.count_append]
    by_cases hrw : r = wr
    · subst hrw
      simp only [if_true, reduceCtorEq, if_false] at hnum
      simp only [hnot, List.count_singleton, beq_self_eq_true, if_true]
      omega
    · simp only [Option.some_inj, Ne.symm hrw, if_false, reduceCtorEq] at hnum
      simp only [List.count_singleton, beq_iff_eq, Ne.symm hrw, if_false]
      omega
  case owner_held => exact h.owner_held
  case depth_pos => exact h.depth_pos_update (by rw [hp]; rintro ⟨⟩) _
  case holder_pc => exact h.holder_pc_update (.inl rfl)
  case sending_parked =>
    exact sending_parked_update h.sending_parked rfl (h.not_sent (by rw [hp]; rintro ⟨⟩))
  case parked_fresh => exact h.parked_fresh_update (by rintro ⟨⟩)
  case pc_ok => exact h.pc_ok_update trivial
  case rho =>
    intro _ _
    exact ⟨t, by grind⟩


/-! ## Calls that change more than one thread, or the holder -/

/-- **`send_lock(wr)`** called by `t`: its `count.fetch_add(1)` counts the record of `wr`, now
handed to the mutex, which `t` holds until it wakes or queues it. -/
theorem Inv.sendLockCall {s : Mutex τ} (h : s.Inv) {t wr : τ} (ht : s.proc t = .idle)
    (hwr : s.proc wr = .parked false) : (s.sendLock t wr).Inv := by
  have htw : t ≠ wr := by
    rintro rfl
    rw [ht] at hwr
    cases hwr
  have hcount := h.count_nonneg
  have hfresh := h.parked_fresh wr hwr
  unfold Mutex.sendLock
  set P : Proc τ := .sendLock wr (if s.count = 0 then .wakeNow else .push) with hP
  have hPreg : P.reg = 0 := by rw [hP]; split <;> rfl
  have hPhand : P.hand = some wr := by rw [hP]; split <;> rfl
  have hPsend : P.sending = some wr := by rw [hP]; split <;> rfl
  have hPwait : P.waiting = false := by rw [hP]; split <;> rfl
  have hPtok : P.tok (s.woken t) + (if s.count = 0 then 0 else 1) = 1 := by rw [hP]; split <;> rfl
  -- the new pcs of `t` and `wr`, and every other thread's unchanged one
  have hpt : Function.update (Function.update s.proc wr (.parked true)) t P t = P := by simp
  have hpw : Function.update (Function.update s.proc wr (.parked true)) t P wr = .parked true := by
    simp [Function.update_of_ne (Ne.symm htw)]
  have hpu : ∀ u, u ≠ t → u ≠ wr →
      Function.update (Function.update s.proc wr (.parked true)) t P u = s.proc u :=
    fun u hut huw => by simp [Function.update_of_ne hut, Function.update_of_ne huw]
  constructor
  case count_eq =>
    refine count_eq_of_step₂ htw h.count_eq (fun u hut huw => by simp [regs, hpu u hut huw]) ?_
    simp only [regs, hpt, hpw, ht, hwr, hPreg]
    simp [Proc.reg]
    omega
  case tokens_eq =>
    refine tokens_eq_of_step₂ htw h.tokens_eq (fun u hut huw => by simp [tok, hpu u hut huw]) ?_
    have hc : ({ s with
        count := s.count + 1
        proc := Function.update (Function.update s.proc wr (.parked true)) t P } : Mutex τ).count =
        s.count + 1 := rfl
    have hh : ({ s with
        count := s.count + 1
        proc := Function.update (Function.update s.proc wr (.parked true)) t P } :
        Mutex τ).handoffTok = s.handoffTok := rfl
    have hc1 : s.count + 1 ≠ 0 := by omega
    rw [hc, hh, if_neg hc1]
    simp only [tok, hpt, hpw, ht, hwr, hfresh]
    have h₀ : (Proc.idle : Proc τ).tok (s.woken t) = 0 := rfl
    have h₁ : (Proc.parked true : Proc τ).tok false = 0 := rfl
    have h₂ : (Proc.parked false : Proc τ).tok false = 0 := rfl
    rw [h₀, h₁, h₂]
    omega
  case places =>
    intro r
    have hnum₁ := num_hand_update (Function.update s.proc wr (.parked true)) t P r
    have hnum₂ := num_hand_update s.proc wr (.parked true) r
    have hnone : (Proc.parked true : Proc τ).hand = none := rfl
    have hnone' : (Proc.parked false : Proc τ).hand = none := rfl
    have hidle : (Proc.idle : Proc τ).hand = none := rfl
    rw [Function.update_of_ne htw, ht, hPhand, hidle] at hnum₁
    rw [hwr, hnone, hnone'] at hnum₂
    simp only [reduceCtorEq, if_false, Option.some_inj, add_zero] at hnum₁ hnum₂
    have hold := h.places r
    unfold place at hold ⊢
    dsimp only
    by_cases hrw : r = wr
    · subst hrw
      have hsl : (s.asleep r) = false := by simp [asleep, hwr, Proc.waiting]
      have hsl' : ({ s with
          count := s.count + 1
          proc := Function.update (Function.update s.proc r (.parked true)) t P } :
          Mutex τ).asleep r = true := by simp [asleep, hpw, hfresh, Proc.waiting]
      rw [hsl']
      rw [hsl] at hold
      simp only [if_true] at hnum₁
      simp only [Bool.toNat_true]
      simp only [Bool.toNat_false] at hold
      omega
    · have hsl : ({ s with
          count := s.count + 1
          proc := Function.update (Function.update s.proc wr (.parked true)) t P } :
          Mutex τ).asleep r = s.asleep r := by
        by_cases hrt : r = t
        · subst hrt
          simp only [asleep, hpt, hPwait, ht]
          rfl
        · simp [asleep, hpu r hrt hrw]
      rw [hsl, ← hold]
      simp only [Ne.symm hrw, if_false, add_zero] at hnum₁
      omega
  case owner_held => exact h.owner_held
  case depth_pos =>
    intro u hu hne
    dsimp only at hu hne
    refine h.depth_pos u hu ?_
    by_cases hut : u = t
    · subst hut
      rw [ht]
      rintro ⟨⟩
    · by_cases huw : u = wr
      · subst huw
        rw [hwr]
        rintro ⟨⟩
      · rwa [hpu u hut huw] at hne
  case holder_pc =>
    intro u hu
    dsimp only at hu ⊢
    by_cases hut : u = t
    · subst hut
      rw [hpt, hP] at hu
      split at hu <;> simp [Proc.byHolder] at hu
    · by_cases huw : u = wr
      · subst huw
        simp [hpw, Proc.byHolder] at hu
      · exact h.holder_pc u (by rwa [hpu u hut huw] at hu)
  case sending_parked =>
    intro u r hu
    dsimp only at hu ⊢
    by_cases hut : u = t
    · subst hut
      rw [hpt, hPsend] at hu
      cases hu
      exact hpw
    · by_cases huw : u = wr
      · subst huw
        simp [hpw, Proc.sending] at hu
      · rw [hpu u hut huw] at hu
        have hr := h.sending_parked u r hu
        have hrt : r ≠ t := by
          rintro rfl
          rw [ht] at hr
          cases hr
        have hrw : r ≠ wr := by
          rintro rfl
          rw [hwr] at hr
          cases hr
        rwa [hpu r hrt hrw]
  case parked_fresh =>
    intro u hu
    dsimp only at hu
    by_cases hut : u = t
    · subst hut
      rw [hpt, hP] at hu
      split at hu <;> cases hu
    · by_cases huw : u = wr
      · subst huw
        rw [hpw] at hu
        cases hu
      · exact h.parked_fresh u (by rwa [hpu u hut huw] at hu)
  case pc_ok =>
    intro u
    dsimp only
    by_cases hut : u = t
    · subst hut
      rw [hpt, hP]
      split <;> trivial
    · by_cases huw : u = wr
      · subst huw
        rw [hpw]
        trivial
      · rw [hpu u hut huw]
        exact h.pc_ok u
  case rho =>
    intro hh hq
    obtain ⟨u, hu⟩ := h.rho hh hq
    have hut : u ≠ t := by
      rintro rfl
      rw [ht] at hu
      exact hu
    have huw : u ≠ wr := by
      rintro rfl
      rw [hwr] at hu
      exact hu
    exact ⟨u, by dsimp only; rwa [hpu u hut huw]⟩


/-- **`condvar_wait` puts `t` to sleep** on a fresh record, the mutex not held. -/
theorem Inv.park {s : Mutex τ} (h : s.Inv) {t : τ} (ht : s.proc t = .idle) :
    ({ s with
      proc := Function.update s.proc t (.parked false)
      woken := Function.update s.woken t false } : Mutex τ).Inv := by
  constructor
  case count_eq =>
    exact count_eq_of_step t h.count_eq (fun u hu => by simp [regs, Function.update_of_ne hu])
      (by simp [regs, ht, Proc.reg])
  case tokens_eq =>
    exact tokens_eq_of_step t h.tokens_eq
      (fun u hu => by simp [tok, Function.update_of_ne hu])
      (by simp [tok, ht, Proc.tok, handoffTok])
  case places =>
    intro r
    have hnum := num_hand_update_stay s.proc (t := t) (p := .parked false) (by rw [ht]; rfl) r
    have hsl : ({ s with
        proc := Function.update s.proc t (.parked false)
        woken := Function.update s.woken t false } : Mutex τ).asleep r = s.asleep r := by
      by_cases hrt : r = t
      · subst hrt
        simp [asleep, ht, Proc.waiting]
      · simp [asleep, Function.update_of_ne hrt]
    rw [hsl, ← h.places r]
    simp only [place, hnum]
  case owner_held => exact h.owner_held
  case depth_pos => exact h.depth_pos_update (by rw [ht]; rintro ⟨⟩) _
  case holder_pc => exact h.holder_pc_update (.inl rfl)
  case sending_parked =>
    exact sending_parked_update h.sending_parked rfl (h.not_sent (by rw [ht]; rintro ⟨⟩))
  case parked_fresh =>
    intro u hu
    dsimp only at hu ⊢
    by_cases hut : u = t
    · subst hut
      simp
    · rw [Function.update_of_ne hut] at hu ⊢
      exact h.parked_fresh u hu
  case pc_ok => exact h.pc_ok_update trivial
  case rho =>
    intro hh hq
    obtain ⟨u, hu⟩ := h.rho hh hq
    have hut : u ≠ t := by
      rintro rfl
      rw [ht] at hu
      exact hu
    exact ⟨u, by dsimp only; rwa [Function.update_of_ne hut]⟩

/-- **`unlock()`** called by the holder: its asserts passed, `--depth`, and on to clear `owner`
if the depth is down to zero. -/
theorem Inv.unlockCall {s : Mutex τ} (h : s.Inv) {t : τ} (ht : s.proc t = .idle)
    (hheld : s.held t = true) :
    ({ s with
      depth := s.depth - 1
      proc := Function.update s.proc t
        (if s.depth - 1 ≠ 0 then .idle else .unlock .ownerClear) } : Mutex τ).Inv := by
  have htt : 1 ≤ s.tok t := by simp [tok, hheld]
  set P : Proc τ := if s.depth - 1 ≠ 0 then .idle else .unlock .ownerClear with hP
  have hPreg : P.reg = 0 := by rw [hP]; split <;> rfl
  have hPtok : P.tok (s.woken t) = 0 := by rw [hP]; split <;> rfl
  have hPhand : P.hand = none := by rw [hP]; split <;> rfl
  have hPwait : P.waiting = false := by rw [hP]; split <;> rfl
  have hPsend : P.sending = none := by rw [hP]; split <;> rfl
  constructor
  case count_eq =>
    refine count_eq_of_step t h.count_eq (fun u hu => by simp [regs, Function.update_of_ne hu]) ?_
    simp only [regs, Function.update_self, hPreg, ht]
    rfl
  case tokens_eq =>
    refine tokens_eq_of_step t h.tokens_eq (fun u hu => by simp [tok, Function.update_of_ne hu]) ?_
    simp only [tok, Function.update_self, hPtok, ht]
    rfl
  case places =>
    intro r
    have hnum := num_hand_update_stay s.proc (t := t) (p := P) (by rw [ht, hPhand]; rfl) r
    have hsl : ({ s with depth := s.depth - 1, proc := Function.update s.proc t P } :
        Mutex τ).asleep r = s.asleep r := by
      by_cases hrt : r = t
      · subst hrt
        simp only [asleep, Function.update_self, hPwait, ht]
        rfl
      · simp [asleep, Function.update_of_ne hrt]
    rw [hsl, ← h.places r]
    simp only [place, hnum]
  case owner_held => exact h.owner_held
  case depth_pos =>
    intro u hu hne
    dsimp only at hu hne ⊢
    by_cases hut : u = t
    · -- the depth stays above zero exactly when `unlock()` returns at once
      subst hut
      rw [Function.update_self, hP] at hne
      split at hne
      · assumption
      · exact absurd rfl hne
    · exact absurd hu (by simp [h.held_eq_false_of_tok hut htt])
  case holder_pc => exact h.holder_pc_update (.inr hheld)
  case sending_parked =>
    exact sending_parked_update h.sending_parked hPsend (h.not_sent (by rw [ht]; rintro ⟨⟩))
  case parked_fresh =>
    exact h.parked_fresh_update fun he => by rw [hP] at he; split at he <;> cases he
  case pc_ok => exact h.pc_ok_update (by rw [hP]; split <;> trivial)
  case rho =>
    intro hh
    exact absurd (h.handoff_eq_zero_of_tok htt) hh

/-- **`owner.store(nullptr)`** by the last `unlock()`: the mutex is no longer held, and the
unlocker goes on to give up its count. -/
theorem Inv.ownerClear {s : Mutex τ} (h : s.Inv) {t : τ} (ht : s.proc t = .unlock .ownerClear) :
    ({ s with
      owner := none
      held := Function.update s.held t false
      proc := Function.update s.proc t (.unlock .dec) } : Mutex τ).Inv := by
  have hheld : s.held t = true := h.holder_pc t (by rw [ht]; rfl)
  have htt : 1 ≤ s.tok t := by simp [tok, hheld]
  constructor
  case count_eq =>
    exact count_eq_of_step t h.count_eq (fun u hu => by simp [regs, Function.update_of_ne hu])
      (by simp [regs, ht, hheld, Proc.reg])
  case tokens_eq =>
    exact tokens_eq_of_step t h.tokens_eq
      (fun u hu => by simp [tok, Function.update_of_ne hu])
      (by simp [tok, ht, hheld, Proc.tok, handoffTok])
  case places =>
    intro r
    have hnum := num_hand_update_stay s.proc (t := t) (p := .unlock .dec) (by rw [ht]; rfl) r
    have hsl : ({ s with
        owner := none
        held := Function.update s.held t false
        proc := Function.update s.proc t (.unlock .dec) } : Mutex τ).asleep r = s.asleep r := by
      by_cases hrt : r = t
      · subst hrt
        simp [asleep, ht, Proc.waiting]
      · simp [asleep, Function.update_of_ne hrt]
    rw [hsl, ← h.places r]
    simp only [place, hnum]
  case owner_held =>
    intro u
    by_cases hut : u = t
    · subst hut
      simp
    · simp [Function.update_of_ne hut, h.held_eq_false_of_tok hut htt]
  case depth_pos =>
    intro u hu _
    dsimp only at hu
    by_cases hut : u = t
    · subst hut
      simp at hu
    · rw [Function.update_of_ne hut] at hu
      exact absurd hu (by simp [h.held_eq_false_of_tok hut htt])
  case holder_pc =>
    intro u hu
    dsimp only at hu ⊢
    by_cases hut : u = t
    · subst hut
      simp [Proc.byHolder] at hu
    · rw [Function.update_of_ne hut] at hu ⊢
      exact h.holder_pc u hu
  case sending_parked =>
    exact sending_parked_update h.sending_parked rfl (h.not_sent (by rw [ht]; rintro ⟨⟩))
  case parked_fresh => exact h.parked_fresh_update (by rintro ⟨⟩)
  case pc_ok => exact h.pc_ok_update trivial
  case rho =>
    intro hh
    exact absurd (h.handoff_eq_zero_of_tok htt) hh


/-! ## Every step keeps the invariant -/

/-- `lock()` called by `t`: `count.fetch_add(1)`. -/
theorem Inv.lockCall {s : Mutex τ} (h : s.Inv) {t : τ} (ht : s.proc t = .idle) :
    (s.lock t).Inv := by
  have hc := h.count_nonneg
  unfold Mutex.lock
  by_cases hc0 : s.count = 0
  · -- the count was zero: the mutex is `t`'s
    rw [if_pos hc0]
    exact h.move ht (by simp [Proc.reg]; omega) (by simp [Proc.tok, hc0]; omega) (.inl rfl) rfl
      trivial (.inl rfl) rfl rfl fun _ _ => .inr ⟨rfl, False.elim⟩
  · rw [if_neg hc0]
    exact h.move ht (by simp [Proc.reg]; omega) (by simp [Proc.tok, hc0]; omega) (.inl rfl) rfl
      trivial (.inl rfl) rfl rfl fun _ _ => .inr ⟨rfl, False.elim⟩

/-- `try_lock()` called by `t`: `count.compare_exchange_strong(0, 1)`. -/
theorem Inv.tryLockCall {s : Mutex τ} (h : s.Inv) {t : τ} (ht : s.proc t = .idle) :
    (s.tryLock t).Inv := by
  unfold Mutex.tryLock
  by_cases hc0 : s.count = 0
  · rw [if_pos hc0]
    exact h.move ht (by simp [Proc.reg, hc0]) (by simp [Proc.tok, hc0]; omega) (.inl rfl) rfl
      trivial (.inl rfl) rfl rfl fun _ _ => .inr ⟨rfl, False.elim⟩
  · rw [if_neg hc0]
    exact h.setProc ht rfl rfl (.inl rfl) rfl trivial (.inl rfl) rfl rfl
      fun _ _ => False.elim

/-- The steps of `t` in `lock()`. -/
theorem Inv.lockStep {s s' : Mutex τ} (h : s.Inv) {t : τ} {pc : LockPc τ}
    (hp : s.proc t = .lock pc) (he : s.lockStep t pc = some s') : s'.Inv := by
  cases pc with
  | ownerLoad =>
    cases he
    by_cases ho : s.owner = some t
    · -- a recursive `lock()` by the holder
      rw [if_pos ho]
      exact h.setProc hp rfl rfl (.inl rfl) rfl trivial (.inr ((h.owner_held t).1 ho)) rfl
        rfl fun _ _ => False.elim
    · rw [if_neg ho]
      exact h.setProc hp rfl rfl (.inl rfl) rfl trivial (.inl rfl) rfl rfl
        fun _ _ => False.elim
  | undo =>
    cases he
    have hheld := h.holder_pc t (by rw [hp]; rfl)
    -- the holder and its own attempt are both counted
    have h2 : (2 : ℤ) ≤ s.count := by
      have := h.regs_le_count t
      simp [regs, hp, hheld, Proc.reg] at this
      omega
    have hc₁ : s.count ≠ 0 := by omega
    have hc₂ : s.count - 1 ≠ 0 := by omega
    have hm : ({ s with count := s.count - 1, proc := Function.update s.proc t .idle } :
        Mutex τ).Inv :=
      h.move hp (by simp [Proc.reg]) (by simp [Proc.tok, hc₁, hc₂]) (.inl rfl) rfl trivial
        (.inl rfl) rfl rfl fun _ _ => .inr ⟨rfl, False.elim⟩
    exact hm.depthSucc
  | push =>
    cases he
    exact h.push hp
  | handoffLoad =>
    cases he
    by_cases hh : s.handoff = 0
    · rw [if_neg (not_not.2 hh)]
      exact h.setProc hp rfl rfl (.inl rfl) rfl trivial (.inl rfl) rfl rfl
        fun hne => absurd hh hne
    · rw [if_pos hh]
      exact h.setProc hp rfl rfl (.inl rfl) rfl hh (.inl rfl) rfl rfl fun _ _ _ => rfl
  | emptyCheck old =>
    cases he
    have hold : old ≠ 0 := by simpa [hp, Proc.PcOk] using h.pc_ok t
    by_cases hq : s.waitqueue = []
    · rw [if_neg (not_not.2 hq)]
      exact h.setProc hp rfl rfl (.inl rfl) rfl trivial (.inl rfl) rfl rfl
        fun _ hne => absurd hq hne
    · rw [if_pos hq]
      exact h.setProc hp rfl rfl (.inl rfl) rfl hold (.inl rfl) rfl rfl fun _ _ hc => hc
  | cas old =>
    have hold : old ≠ 0 := by simpa [hp, Proc.PcOk] using h.pc_ok t
    simp only [Mutex.lockStep] at he
    split_ifs at he with hh
    · -- the handoff is taken back: `t` takes over the duty to wake a waiter
      cases he
      exact h.move hp (by simp [Proc.reg]) (by simp [Proc.tok, hh, hold]; omega) (.inl rfl) rfl
        trivial (.inl rfl) rfl rfl fun hne => absurd rfl hne
    · cases he
      exact h.setProc hp rfl rfl (.inl rfl) rfl trivial (.inl rfl) rfl rfl
        fun _ _ hc => absurd hc.symm hh
  | pop =>
    simp only [Mutex.lockStep] at he
    split at he
    · rename_i other rest hq
      cases he
      have hwo : s.woken other = false := by
        have := h.asleep_of_mem (r := other) (by simp [hq])
        simp [asleep] at this
        exact this.2
      by_cases hself : s.woken other = true ∨ other ≠ t
      · rw [if_pos hself]
        have hot : other ≠ t := by simpa [hwo] using hself
        exact h.pop hp hq rfl rfl rfl rfl rfl rfl hot rfl rfl (by rintro ⟨⟩)
      · -- `other->thread() == current`: `t` popped its own record
        rw [if_neg hself]
        have hot : other = t := by simpa [hwo] using hself
        subst hot
        exact h.popSelf hp hq
    · cases he
  | wake other =>
    simp only [Mutex.lockStep] at he
    split_ifs at he with hw
    cases he
    have hw' : s.woken t = false := by simpa using hw
    exact h.wake hp rfl (by simp [Proc.tok, hw']) (by simp [Proc.tok, hw']) (.inl rfl) rfl rfl
  | wait =>
    simp only [Mutex.lockStep] at he
    split_ifs at he with hw
    cases he
    exact h.setProc hp rfl (by simp [Proc.tok, hw]) (.inr hw) rfl trivial (.inl rfl) rfl rfl
      fun _ _ => False.elim
  | set =>
    cases he
    exact h.take hp rfl rfl (.inl rfl) rfl


/-- `if (++sequence == 0U) ++sequence`: the handoff an `unlock()` leaves is never zero, also
when the 32-bit sequence wraps. -/
theorem nextSequence_ne_zero (q : UInt32) : nextSequence q ≠ 0 := by
  unfold nextSequence
  split
  · grind
  · assumption

/-- The steps of `t` in `unlock()`. -/
theorem Inv.unlockStep {s s' : Mutex τ} (h : s.Inv) {t : τ} {pc : UnlockPc τ}
    (hp : s.proc t = .unlock pc) (he : s.unlockStep t pc = some s') : s'.Inv := by
  cases pc with
  | ownerClear =>
    cases he
    exact h.ownerClear hp
  | dec =>
    cases he
    have h1 : (1 : ℤ) ≤ s.count := by
      have := h.regs_le_count t
      simp [regs, hp, Proc.reg] at this
      omega
    by_cases hc1 : s.count = 1
    · -- `count.fetch_add(-1) == 1`: no other attempt, and nothing to hand over
      rw [if_pos hc1]
      exact h.move hp (by simp only [Proc.reg, Nat.cast_zero, Nat.cast_one]; omega)
        (by simp [Proc.tok, hc1]; omega) (.inl rfl) rfl trivial (.inl rfl) rfl rfl
        fun _ _ => .inr ⟨rfl, False.elim⟩
    · rw [if_neg hc1]
      have hc₁ : s.count ≠ 0 := by omega
      have hc₂ : s.count - 1 ≠ 0 := by omega
      exact h.move hp (by simp only [Proc.reg, Nat.cast_zero, Nat.cast_one]; omega)
        (by simp [Proc.tok, hc₁, hc₂]) (.inl rfl) rfl trivial (.inl rfl) rfl rfl
        fun _ _ => .inr ⟨rfl, False.elim⟩
  | pop =>
    simp only [Mutex.unlockStep] at he
    split at he
    · rename_i other rest hq
      cases he
      exact h.pop hp hq rfl rfl rfl rfl rfl rfl trivial rfl rfl (by rintro ⟨⟩)
    · -- the queue is empty: leave the handoff
      cases he
      exact h.setProc hp rfl rfl (.inl rfl) rfl trivial (.inl rfl) rfl rfl
        fun _ _ => False.elim
  | wake other =>
    simp only [Mutex.unlockStep] at he
    split_ifs at he
    cases he
    exact h.wake hp rfl rfl rfl (.inr rfl) rfl rfl
  | seq =>
    cases he
    have hm : (s.setProc t (.unlock (.store (nextSequence s.sequence)))).Inv :=
      h.setProc hp rfl rfl (.inl rfl) rfl (nextSequence_ne_zero _) (.inl rfl) rfl rfl
        fun _ _ => False.elim
    exact hm.withSequence _
  | store v =>
    cases he
    have hv : v ≠ 0 := by simpa [hp, Proc.PcOk] using h.pc_ok t
    -- the unlocker carries the token, so no handoff is left yet
    have hh : s.handoff = 0 := h.handoff_eq_zero_of_tok (t := t) (by simp [tok, hp, Proc.tok])
    exact h.move hp (by simp [Proc.reg]) (by simp [Proc.tok, hv, hh]) (.inl rfl) rfl hv
      (.inl rfl) rfl rfl fun _ _ => .inl rfl
  | emptyCheck v =>
    cases he
    have hv : v ≠ 0 := by simpa [hp, Proc.PcOk] using h.pc_ok t
    by_cases hq : s.waitqueue = []
    · rw [if_pos hq]
      exact h.setProc hp rfl rfl (.inl rfl) rfl trivial (.inl rfl) rfl rfl
        fun _ hne => absurd hq hne
    · rw [if_neg hq]
      exact h.setProc hp rfl rfl (.inl rfl) rfl hv (.inl rfl) rfl rfl fun _ _ hc => hc
  | cas v =>
    have hv : v ≠ 0 := by simpa [hp, Proc.PcOk] using h.pc_ok t
    simp only [Mutex.unlockStep] at he
    split_ifs at he with hh
    · -- the unlocker takes its own handoff back and pops again
      cases he
      exact h.move hp (by simp [Proc.reg]) (by simp [Proc.tok, hh, hv]) (.inl rfl) rfl trivial
        (.inl rfl) rfl rfl fun hne => absurd rfl hne
    · cases he
      exact h.setProc hp rfl rfl (.inl rfl) rfl trivial (.inl rfl) rfl rfl
        fun _ _ hc => absurd hc.symm hh

/-- The steps of `t` in `try_lock()`. -/
theorem Inv.tryLockStep {s s' : Mutex τ} (h : s.Inv) {t : τ} {pc : TryLockPc}
    (hp : s.proc t = .tryLock pc) (he : s.tryLockStep t pc = some s') : s'.Inv := by
  cases pc with
  | ownerLoad =>
    simp only [Mutex.tryLockStep] at he
    split_ifs at he with ho
    · -- a recursive `try_lock()` by the holder
      cases he
      have hm : (s.setProc t .idle).Inv :=
        h.setProc hp rfl rfl (.inl rfl) rfl trivial (.inl rfl) rfl rfl fun _ _ => False.elim
      exact hm.depthSucc
    · cases he
      exact h.setProc hp rfl rfl (.inl rfl) rfl trivial (.inl rfl) rfl rfl
        fun _ _ => False.elim
  | handoffLoad =>
    cases he
    by_cases hh : s.handoff = 0
    · rw [if_neg (not_not.2 hh)]
      exact h.setProc hp rfl rfl (.inl rfl) rfl trivial (.inl rfl) rfl rfl
        fun _ _ => False.elim
    · rw [if_pos hh]
      exact h.setProc hp rfl rfl (.inl rfl) rfl hh (.inl rfl) rfl rfl fun _ _ => False.elim
  | cas old =>
    have hold : old ≠ 0 := by simpa [hp, Proc.PcOk] using h.pc_ok t
    simp only [Mutex.tryLockStep] at he
    split_ifs at he with hh
    · -- the handoff is taken, and with it the mutex
      cases he
      exact h.move hp (by simp [Proc.reg]) (by simp [Proc.tok, hh, hold]) (.inl rfl) rfl trivial
        (.inl rfl) rfl rfl fun hne => absurd rfl hne
    · cases he
      exact h.setProc hp rfl rfl (.inl rfl) rfl trivial (.inl rfl) rfl rfl
        fun _ _ => False.elim
  | add =>
    cases he
    have hc₁ : s.count ≠ 0 := h.count_ne_zero_of_tok (t := t) (by simp [tok, hp, Proc.tok])
    have hc₂ : s.count + 1 ≠ 0 := by have := h.count_nonneg; omega
    exact h.move hp (by simp only [Proc.reg, Nat.cast_zero, Nat.cast_one]; omega)
      (by simp [Proc.tok, hc₁, hc₂]) (.inl rfl) rfl trivial (.inl rfl) rfl rfl
      fun _ _ => .inr ⟨rfl, False.elim⟩
  | set =>
    cases he
    exact h.take hp rfl rfl (.inl rfl) rfl

/-- The steps of `t` in `send_lock(wr)`. -/
theorem Inv.sendLockStep {s s' : Mutex τ} (h : s.Inv) {t wr : τ} {pc : SendLockPc τ}
    (hp : s.proc t = .sendLock wr pc) (he : s.sendLockStep t wr pc = some s') : s'.Inv := by
  cases pc with
  | wakeNow =>
    cases he
    exact h.wake hp rfl rfl rfl (.inr rfl) rfl rfl
  | push =>
    cases he
    exact h.sendPush hp
  | handoffLoad =>
    cases he
    by_cases hh : s.handoff = 0
    · rw [if_neg (not_not.2 hh)]
      exact h.setProc hp rfl rfl (.inl rfl) rfl trivial (.inl rfl) rfl rfl
        fun hne => absurd hh hne
    · rw [if_pos hh]
      exact h.setProc hp rfl rfl (.inl rfl) rfl hh (.inl rfl) rfl rfl fun _ _ _ => rfl
  | emptyCheck old =>
    cases he
    have hold : old ≠ 0 := by simpa [hp, Proc.PcOk] using h.pc_ok t
    by_cases hq : s.waitqueue = []
    · rw [if_neg (not_not.2 hq)]
      exact h.setProc hp rfl rfl (.inl rfl) rfl trivial (.inl rfl) rfl rfl
        fun _ hne => absurd hq hne
    · rw [if_pos hq]
      exact h.setProc hp rfl rfl (.inl rfl) rfl hold (.inl rfl) rfl rfl fun _ _ hc => hc
  | cas old =>
    have hold : old ≠ 0 := by simpa [hp, Proc.PcOk] using h.pc_ok t
    simp only [Mutex.sendLockStep] at he
    split_ifs at he with hh
    · cases he
      exact h.move hp (by simp [Proc.reg]) (by simp [Proc.tok, hh, hold]) (.inl rfl) rfl trivial
        (.inl rfl) rfl rfl fun hne => absurd rfl hne
    · cases he
      exact h.setProc hp rfl rfl (.inl rfl) rfl trivial (.inl rfl) rfl rfl
        fun _ _ hc => absurd hc.symm hh
  | pop =>
    simp only [Mutex.sendLockStep] at he
    split at he
    · rename_i other rest hq
      cases he
      exact h.pop hp hq rfl rfl rfl rfl rfl rfl trivial rfl rfl (by rintro ⟨⟩)
    · cases he
  | wake other =>
    cases he
    exact h.wake hp rfl rfl rfl (.inr rfl) rfl rfl

/-- **Every step keeps the invariant.** -/
theorem Inv.exec {s s' : Mutex τ} (h : s.Inv) {a : Action τ} (he : s.exec a = some s') :
    s'.Inv := by
  cases a with
  | lock t =>
    simp only [Mutex.exec] at he
    split_ifs at he with ht
    cases he
    exact h.lockCall ht
  | tryLock t =>
    simp only [Mutex.exec] at he
    split_ifs at he with ht
    cases he
    exact h.tryLockCall ht
  | unlock t =>
    simp only [Mutex.exec] at he
    split_ifs at he with ht
    simp only [Mutex.unlock] at he
    by_cases hok : s.owner = some t ∧ s.depth ≠ 0
    · rw [if_pos hok] at he
      cases he
      exact h.unlockCall ht.1 ht.2
    · rw [if_neg hok] at he
      cases he
  | sendLock t wr =>
    simp only [Mutex.exec] at he
    split_ifs at he with ht
    cases he
    exact h.sendLockCall ht.1 ht.2
  | park t =>
    simp only [Mutex.exec] at he
    split_ifs at he with ht
    cases he
    exact h.park ht.1
  | unpark t =>
    simp only [Mutex.exec] at he
    split_ifs at he with ht
    cases he
    exact h.setProc ht rfl rfl (.inl rfl) rfl trivial (.inl rfl) rfl rfl fun _ _ => False.elim
  | step t =>
    simp only [Mutex.exec] at he
    cases hp : s.proc t with
    | idle => simp [hp] at he
    | lock pc =>
      simp only [hp] at he
      exact h.lockStep hp he
    | unlock pc =>
      simp only [hp] at he
      exact h.unlockStep hp he
    | tryLock pc =>
      simp only [hp] at he
      exact h.tryLockStep hp he
    | sendLock wr pc =>
      simp only [hp] at he
      exact h.sendLockStep hp he
    | parked sent =>
      cases sent with
      | false => simp [hp] at he
      | true =>
        -- `receive_lock()` by a thread whose record the mutex woke
        simp only [hp] at he
        split_ifs at he with hw
        cases he
        exact h.take hp rfl (by simp [Proc.tok, hw]) (.inr hw) rfl

end Mutex

/-- **The invariant of `lockfree::mutex`** holds in every reachable state. -/
theorem mutex_inv {τ : Type*} [Fintype τ] [DecidableEq τ] {s : Mutex τ}
    (hs : Reachable (mutex τ) s) : s.Inv := by
  refine Inductive.reachable (I := Mutex.Inv)
    ⟨fun s₀ (h₀ : s₀ = Mutex.init) => h₀ ▸ Mutex.init_inv, ?_⟩ hs
  rintro s a t h (he : s.exec a = some t)
  exact h.exec he


/-! ## What the mutex guarantees -/

namespace Mutex

variable {τ : Type*} [Fintype τ] [DecidableEq τ]

/-- `t` has the mutex or is being given it: it holds it, it is about to `owner.store(current)`
in `lock()` or `try_lock()`, it took a handoff in `try_lock()`, or it sleeps on a record the
mutex woke. -/
def Owns (s : Mutex τ) (t : τ) : Prop :=
  s.held t = true ∨ s.proc t = .lock .set ∨ s.proc t = .tryLock .add ∨
    s.proc t = .tryLock .set ∨ s.woken t = true ∧ (s.proc t).waiting = true

/-- No thread is half-way through a call of the mutex: each runs its own code, sleeps in
`lock()`'s `waiter.wait()`, or sleeps on a condvar. -/
def Quiescent (s : Mutex τ) : Prop :=
  ∀ t, s.proc t = .idle ∨ s.proc t = .lock .wait ∨ ∃ b, s.proc t = .parked b

instance (s : Mutex τ) : Decidable s.Quiescent :=
  inferInstanceAs
    (Decidable (∀ t, s.proc t = .idle ∨ s.proc t = .lock .wait ∨ ∃ b, s.proc t = .parked b))

omit [Fintype τ] [DecidableEq τ] in
theorem one_le_tok_of_owns {s : Mutex τ} {t : τ} (ho : s.Owns t) : 1 ≤ s.tok t := by
  unfold tok
  rcases ho with hh | hp | hp | hp | ⟨hw, hp⟩
  · simp [hh]
  all_goals try (rw [hp]; simp [Proc.tok])
  rw [hw]
  have := Proc.one_le_tok_true_of_waiting hp
  omega

omit [Fintype τ] [DecidableEq τ] in
/-- The token of a thread in a quiescent state: the mutex held, or its woken sleeping record. -/
theorem tok_of_quiescent {s : Mutex τ} (hq : s.Quiescent) {t : τ} (ht : 1 ≤ s.tok t) :
    s.held t = true ∨ s.woken t = true ∧ (s.proc t = .lock .wait ∨ s.proc t = .parked true) := by
  unfold tok at ht
  cases hh : s.held t
  · rcases hq t with hp | hp | ⟨b, hp⟩
    · simp [hp, hh, Proc.tok] at ht
    · cases hw : s.woken t
      · simp [hp, hh, hw, Proc.tok] at ht
      · exact .inr ⟨rfl, .inl hp⟩
    · cases b
      · simp [hp, hh, Proc.tok] at ht
      · cases hw : s.woken t
        · simp [hp, hh, hw, Proc.tok] at ht
        · exact .inr ⟨rfl, .inr hp⟩
  · exact .inl rfl

end Mutex

/-- A run of two threads: thread 0 takes the mutex, thread 1 then calls `lock()`, queues its
record, finds no handoff and sleeps in `waiter.wait()`. -/
def Mutex.contendedRun : List (Mutex.Action (Fin 2)) :=
  [.lock 0, .step 0, .lock 1, .step 1, .step 1, .step 1]

/-- The state after `Mutex.contendedRun`. -/
def Mutex.contended : Mutex (Fin 2) :=
  (runFrom Mutex.exec Mutex.init Mutex.contendedRun).getD Mutex.init

theorem Mutex.contended_reachable : Reachable (mutex (Fin 2)) Mutex.contended :=
  reachable_of_runFrom (Reachable.init (S := mutex (Fin 2)) rfl)
    (show runFrom Mutex.exec Mutex.init Mutex.contendedRun = some Mutex.contended from rfl)

/-- `Mutex.contendedRun`, then thread 0 calls `unlock()`: it clears `owner`, finds the count
above one and is about to pop the record of thread 1. -/
def Mutex.handingRun : List (Mutex.Action (Fin 2)) :=
  Mutex.contendedRun ++ [.unlock 0, .step 0, .step 0]

/-- The state after `Mutex.handingRun`. -/
def Mutex.handing : Mutex (Fin 2) :=
  (runFrom Mutex.exec Mutex.init Mutex.handingRun).getD Mutex.init

theorem Mutex.handing_reachable : Reachable (mutex (Fin 2)) Mutex.handing :=
  reachable_of_runFrom (Reachable.init (S := mutex (Fin 2)) rfl)
    (show runFrom Mutex.exec Mutex.init Mutex.handingRun = some Mutex.handing from rfl)

/-- A run of one thread: it takes the mutex and calls `unlock()`, which has cleared `owner` and
is about to `count.fetch_add(-1)`. -/
def Mutex.releasingRun : List (Mutex.Action (Fin 2)) := [.lock 0, .step 0, .unlock 0, .step 0]

/-- The state after `Mutex.releasingRun`. -/
def Mutex.releasing : Mutex (Fin 2) :=
  (runFrom Mutex.exec Mutex.init Mutex.releasingRun).getD Mutex.init

theorem Mutex.releasing_reachable : Reachable (mutex (Fin 2)) Mutex.releasing :=
  reachable_of_runFrom (Reachable.init (S := mutex (Fin 2)) rfl)
    (show runFrom Mutex.exec Mutex.init Mutex.releasingRun = some Mutex.releasing from rfl)

section results

variable {τ : Type*} [Fintype τ] [DecidableEq τ]

/-- **Mutual exclusion.**  In every reachable state, for any number of threads running `lock`,
`try_lock`, `unlock` and `send_lock` in any interleaving, at most one thread has the mutex or is
being given it (counting a `send_lock`ed record's thread once the record is woken), and
`owned()` answers true exactly to the thread that holds it. -/
theorem mutex_mutual_exclusion {s : Mutex τ} (hs : Reachable (mutex τ) s) :
    (∀ t u, s.Owns t → s.Owns u → t = u) ∧ ∀ t, s.owned t = true ↔ s.held t = true := by
  have h := mutex_inv hs
  refine ⟨fun t u ht hu => ?_, fun t => by simp [Mutex.owned, h.owner_held]⟩
  by_contra htu
  have := h.tok_add_tok htu
  have := Mutex.one_le_tok_of_owns ht
  have := Mutex.one_le_tok_of_owns hu
  omega

theorem mutex_mutual_exclusion_contended :
    Reachable (mutex (Fin 2)) Mutex.contended ∧
      ((∀ t u, Mutex.contended.Owns t → Mutex.contended.Owns u → t = u) ∧
        ∀ t, Mutex.contended.owned t = true ↔ Mutex.contended.held t = true) :=
  ⟨Mutex.contended_reachable, mutex_mutual_exclusion Mutex.contended_reachable⟩

/-- **One `pop()` at a time.**  In every reachable state, while a thread is at a
`waitqueue.pop()` (in `unlock()`, or in `lock()` or `send_lock()` after taking the handoff) no
other thread is, the handoff is clear and no thread has or is being given the mutex: the single
consumer that `queue_mpsc` requires. -/
theorem mutex_single_popper {s : Mutex τ} (hs : Reachable (mutex τ) s) (t : τ)
    (ht : (s.proc t).atPop = true) :
    s.handoff = 0 ∧ ∀ u, u ≠ t → (s.proc u).atPop = false ∧ ¬ s.Owns u := by
  have h := mutex_inv hs
  have htt : 1 ≤ s.tok t := by
    have := Mutex.Proc.one_le_tok_of_atPop ht (s.woken t)
    unfold Mutex.tok
    omega
  refine ⟨h.handoff_eq_zero_of_tok htt, fun u hut => ⟨?_, fun ho => ?_⟩⟩
  · cases hu : (s.proc u).atPop
    · rfl
    · have := Mutex.Proc.one_le_tok_of_atPop hu (s.woken u)
      have := h.tok_eq_zero_of_tok hut htt
      unfold Mutex.tok at this
      omega
  · have := Mutex.one_le_tok_of_owns ho
    have := h.tok_eq_zero_of_tok hut htt
    omega


theorem mutex_single_popper_handing :
    Reachable (mutex (Fin 2)) Mutex.handing ∧ (Mutex.handing.proc 0).atPop = true ∧
      (Mutex.handing.handoff = 0 ∧
        ∀ u, u ≠ 0 → (Mutex.handing.proc u).atPop = false ∧ ¬ Mutex.handing.Owns u) :=
  ⟨Mutex.handing_reachable, rfl, mutex_single_popper Mutex.handing_reachable 0 rfl⟩

/-- **`lock()` and `unlock()` never fail their asserts.**  In every reachable state a thread in
`lock()` can take its next step unless it sleeps in `waiter.wait()` on a record not yet woken:
`assert(other)` after the pop finds a record and `assert(waiter.thread())` finds its own record
not woken.  A thread in `unlock()` can always take its next step (`assert(other->thread() !=
current)`), and the holder's `unlock()` passes `assert(owner == current)` and `assert(depth!=0)`.
This holds also when the 32-bit handoff sequence wraps. -/
theorem mutex_lock_unlock_asserts {s : Mutex τ} (hs : Reachable (mutex τ) s) (t : τ) :
    (∀ pc, s.proc t = .lock pc → (pc = .wait → s.woken t = true) →
        (s.exec (.step t)).isSome) ∧
      (∀ pc, s.proc t = .unlock pc → (s.exec (.step t)).isSome) ∧
      (s.proc t = .idle → s.held t = true → (s.exec (.unlock t)).isSome) := by
  have h := mutex_inv hs
  refine ⟨fun pc hp hw => ?_, fun pc hp => ?_, fun hp hheld => ?_⟩
  · simp only [Mutex.exec, hp]
    cases pc with
    | pop =>
      -- the popper's own record is still queued: no other thread carries a token to pop it
      have hwt : s.woken t = false := by
        have := h.tok_add_handoff t
        simp only [Mutex.tok, hp, Mutex.Proc.tok] at this
        cases hb : s.woken t
        · rfl
        · rw [hb, Bool.toNat_true] at this
          omega
      have hat : s.asleep t = true := by simp [Mutex.asleep, hp, hwt, Mutex.Proc.waiting]
      have hmem : t ∈ s.waitqueue := by
        rcases h.placed hat with hm | ⟨u, hu⟩
        · exact hm
        · have hut : u ≠ t := by
            rintro rfl
            rw [hp] at hu
            cases hu
          -- a sender's record sleeps on a condvar, so `u` pops and carries a token
          have hsend : (s.proc u).sending = none := by
            cases hsu : (s.proc u).sending with
            | none => rfl
            | some r =>
              have := h.sending_parked u r hsu
              rw [Mutex.Proc.hand_of_sending hsu] at hu
              cases hu
              rw [hp] at this
              cases this
          have hu1 := Mutex.Proc.one_le_tok_of_hand hu hsend (s.woken u)
          have ht1 : 1 ≤ (Mutex.Proc.lock .pop : Mutex.Proc τ).tok (s.woken t) := by
            simp [Mutex.Proc.tok]
          have := h.tok_add_tok hut
          simp only [Mutex.tok, hp] at this
          omega
      cases hq : s.waitqueue with
      | nil => simp [hq] at hmem
      | cons o rest => simp [Mutex.lockStep, hq]
    | wake o =>
      have hwt : s.woken t = false := by
        have := h.tok_add_handoff t
        simp only [Mutex.tok, hp, Mutex.Proc.tok] at this
        cases hb : s.woken t
        · rfl
        · rw [hb, Bool.toNat_true] at this
          omega
      simp [Mutex.lockStep, hwt]
    | wait => simp [Mutex.lockStep, hw rfl]
    | _ =>
      simp only [Mutex.lockStep]
      (try split) <;> rfl
  · simp only [Mutex.exec, hp]
    cases pc with
    | wake o =>
      -- the woken record sleeps, and `t` in `unlock()` does not
      have hot : o ≠ t := by
        rintro rfl
        have := h.asleep_of_hand (t := o) (r := o) (by rw [hp]; rfl)
        simp [Mutex.asleep, hp, Mutex.Proc.waiting] at this
      simp [Mutex.unlockStep, hot]
    | _ =>
      simp only [Mutex.unlockStep]
      (try split) <;> rfl
  · have ho := (h.owner_held t).2 hheld
    have hd := h.depth_pos t hheld (by rw [hp]; rintro ⟨⟩)
    simp [Mutex.exec, hp, hheld, Mutex.unlock, ho, hd]

/-- In `Mutex.contended` thread `0` holds the mutex outside a call, so its `unlock()` may
start; in `Mutex.handing` it is at the `pop()` of its `unlock()`, which takes a step. -/
theorem mutex_lock_unlock_asserts_contended :
    Reachable (mutex (Fin 2)) Mutex.contended ∧ Reachable (mutex (Fin 2)) Mutex.handing ∧
      Mutex.contended.proc 0 = .idle ∧ Mutex.contended.held 0 = true ∧
      Mutex.handing.proc 0 = .unlock .pop ∧
      (Mutex.contended.proc 0 = .idle → Mutex.contended.held 0 = true →
        (Mutex.contended.exec (.unlock 0)).isSome) ∧
      (∀ pc, Mutex.handing.proc 0 = .unlock pc → (Mutex.handing.exec (.step 0)).isSome) :=
  ⟨Mutex.contended_reachable, Mutex.handing_reachable, by decide, by decide, rfl,
    (mutex_lock_unlock_asserts Mutex.contended_reachable 0).2.2,
    (mutex_lock_unlock_asserts Mutex.handing_reachable 0).2.1⟩

/-- **No lost wake-up.**  In every reachable state where no thread is half-way through a call,
if the count is not zero (a thread holds the mutex, or sleeps in `lock()` or on a record handed
to `send_lock`), then some thread holds the mutex, or some sleeping thread's record has been
woken, so that it goes on to take it: a handoff left by an `unlock()` was taken up, and nobody
sleeps while the mutex is free. -/
theorem mutex_no_lost_wakeup {s : Mutex τ} (hs : Reachable (mutex τ) s) (hq : s.Quiescent)
    (hc : s.count ≠ 0) :
    ∃ t, s.held t = true ∨ s.woken t = true ∧ (s.proc t = .lock .wait ∨ s.proc t = .parked true) := by
  have h := mutex_inv hs
  have htok := h.tokens_eq
  rw [if_neg hc] at htok
  -- nobody in a quiescent state looks at the handoff or has a record in hand
  have hnochk : ∀ t x, ¬ (s.proc t).Checks x := by
    intro t x
    rcases hq t with hp | hp | ⟨b, hp⟩ <;> rw [hp]
    · exact id
    · exact id
    · cases b <;> exact id
  have hnohand : ∀ t, (s.proc t).hand = none := by
    intro t
    rcases hq t with hp | hp | ⟨b, hp⟩ <;> rw [hp]
    · rfl
    · rfl
    · cases b <;> rfl
  -- the handoff is clear: with no thread's token, a counted thread's record would be queued
  -- with nobody left to take the handoff up
  have hh : s.handoff = 0 := by
    by_contra hne
    have hall : ∀ t, s.tok t = 0 := by
      intro t
      have hle : s.tok t ≤ ∑ u, s.tok u :=
        Finset.single_le_sum (fun _ _ => Nat.zero_le _) (Finset.mem_univ t)
      unfold Mutex.tokens Mutex.handoffTok at htok
      rw [if_neg hne] at htok
      omega
    have hsum : ∑ t, s.regs t ≠ 0 := fun h0 => hc (by rw [h.count_eq, h0]; rfl)
    obtain ⟨t, -, ht⟩ := Finset.exists_ne_zero_of_sum_ne_zero hsum
    have hheld : s.held t = false := by
      have := hall t
      unfold Mutex.tok at this
      cases hb : s.held t <;> simp_all
    have hwoken : s.woken t = false := by
      have := hall t
      unfold Mutex.tok at this
      rcases hq t with hp | hp | ⟨b, hp⟩
      · simp [Mutex.regs, hp, hheld, Mutex.Proc.reg] at ht
      · cases hb : s.woken t <;> simp_all [Mutex.Proc.tok]
      · cases b
        · simp [Mutex.regs, hp, hheld, Mutex.Proc.reg] at ht
        · cases hb : s.woken t <;> simp_all [Mutex.Proc.tok]
    have hat : s.asleep t = true := by
      rcases hq t with hp | hp | ⟨b, hp⟩
      · simp [Mutex.regs, hp, hheld, Mutex.Proc.reg] at ht
      · simp [Mutex.asleep, hp, hwoken, Mutex.Proc.waiting]
      · cases b
        · simp [Mutex.regs, hp, hheld, Mutex.Proc.reg] at ht
        · simp [Mutex.asleep, hp, hwoken, Mutex.Proc.waiting]
    have hmem : t ∈ s.waitqueue := by
      rcases h.placed hat with hm | ⟨u, hu⟩
      · exact hm
      · rw [hnohand u] at hu
        cases hu
    obtain ⟨u, hu⟩ := h.rho hne (List.ne_nil_of_mem hmem)
    exact hnochk u _ hu
  -- so the one token is a thread's
  have hsum : ∑ t, s.tok t ≠ 0 := by
    unfold Mutex.tokens Mutex.handoffTok at htok
    rw [if_pos hh] at htok
    omega
  obtain ⟨t, -, ht⟩ := Finset.exists_ne_zero_of_sum_ne_zero hsum
  exact ⟨t, Mutex.tok_of_quiescent hq (Nat.one_le_iff_ne_zero.2 ht)⟩

theorem mutex_no_lost_wakeup_contended :
    Reachable (mutex (Fin 2)) Mutex.contended ∧ Mutex.contended.Quiescent ∧
      Mutex.contended.count ≠ 0 ∧
      ∃ t, Mutex.contended.held t = true ∨ Mutex.contended.woken t = true ∧
        (Mutex.contended.proc t = .lock .wait ∨ Mutex.contended.proc t = .parked true) :=
  have hq : Mutex.contended.Quiescent := by decide
  have hc : Mutex.contended.count ≠ 0 := by decide
  ⟨Mutex.contended_reachable, hq, hc, mutex_no_lost_wakeup Mutex.contended_reachable hq hc⟩

/-- **Every sleeping record is in one place, and only sleeping records are anywhere.**  In every
reachable state a record that sleeps on the mutex and was not woken is once on the wait queue
or in the hand of one thread (to be queued by `send_lock`, or to be woken after its pop), and no
other record is on the queue or in a hand: the queue has no duplicates, and every `wake()` is of
a record whose thread still sleeps on it and that was not woken before. -/
theorem mutex_records_once {s : Mutex τ} (hs : Reachable (mutex τ) s) :
    (∀ r, s.waitqueue.count r + Count.num (· = some r) (fun t => (s.proc t).hand) =
        if (s.proc r).waiting = true ∧ s.woken r = false then 1 else 0) ∧
      s.waitqueue.Nodup ∧
      ∀ t r, (s.proc t).hand = some r →
        (s.proc r).waiting = true ∧ s.woken r = false ∧ r ∉ s.waitqueue := by
  have h := mutex_inv hs
  refine ⟨fun r => ?_, h.nodup, fun t r ht => ?_⟩
  · have := h.places r
    unfold Mutex.place Mutex.asleep at this
    rw [this]
    cases (s.proc r).waiting <;> cases s.woken r <;> rfl
  · have hsl := h.asleep_of_hand ht
    simp only [Mutex.asleep, Bool.and_eq_true, Bool.not_eq_true'] at hsl
    exact ⟨hsl.1, hsl.2, h.not_mem_of_hand ht⟩

theorem mutex_records_once_contended :
    Reachable (mutex (Fin 2)) Mutex.contended ∧
      ((∀ r, Mutex.contended.waitqueue.count r +
          Count.num (· = some r) (fun t => (Mutex.contended.proc t).hand) =
          if (Mutex.contended.proc r).waiting = true ∧ Mutex.contended.woken r = false then 1
          else 0) ∧
        Mutex.contended.waitqueue.Nodup ∧
        ∀ t r, (Mutex.contended.proc t).hand = some r →
          (Mutex.contended.proc r).waiting = true ∧ Mutex.contended.woken r = false ∧
            r ∉ Mutex.contended.waitqueue) :=
  ⟨Mutex.contended_reachable, mutex_records_once Mutex.contended_reachable⟩

/-- **The uncontended `unlock()` leaves nobody behind.**  When `unlock()`'s
`count.fetch_add(-1)` is about to return 1, in every reachable state, the wait queue is empty and
no other thread holds the mutex, is in `lock()` or `try_lock()` past its increment, or sleeps on
a record handed to `send_lock`: returning without waking anybody loses nobody. -/
theorem mutex_unlock_uncontended {s : Mutex τ} (hs : Reachable (mutex τ) s) {t : τ}
    (hp : s.proc t = .unlock .dec) (hc : s.count = 1) :
    s.waitqueue = [] ∧ ∀ u, u ≠ t → s.held u = false ∧ (s.proc u).reg = 0 := by
  have h := mutex_inv hs
  -- `count` is the sum of the shares, and the unlocker's is already one
  have hother : ∀ u, u ≠ t → s.regs u = 0 := by
    intro u hut
    have hle := Count.add_le_sum (f := s.regs) (Ne.symm hut)
    have hsum : ∑ v, s.regs v = 1 := by have := h.count_eq; omega
    have hrt : s.regs t = 1 + (s.held t).toNat := by
      simp [Mutex.regs, hp, Mutex.Proc.reg]
      omega
    omega
  refine ⟨List.eq_nil_iff_forall_not_mem.2 fun r hr => ?_, fun u hut => ?_⟩
  · have hsl := h.asleep_of_mem hr
    simp only [Mutex.asleep, Bool.and_eq_true] at hsl
    have hrt : r ≠ t := by
      rintro rfl
      rw [hp] at hsl
      simp [Mutex.Proc.waiting] at hsl
    have := hother r hrt
    simp [Mutex.regs, Mutex.Proc.reg_of_waiting hsl.1] at this
  · have := hother u hut
    unfold Mutex.regs at this
    constructor
    · cases hb : s.held u <;> simp_all
    · omega

theorem mutex_unlock_uncontended_releasing :
    Reachable (mutex (Fin 2)) Mutex.releasing ∧ Mutex.releasing.proc 0 = .unlock .dec ∧
      Mutex.releasing.count = 1 ∧
      (Mutex.releasing.waitqueue = [] ∧
        ∀ u, u ≠ 0 → Mutex.releasing.held u = false ∧ (Mutex.releasing.proc u).reg = 0) :=
  have hp : Mutex.releasing.proc 0 = .unlock .dec := by decide
  have hc : Mutex.releasing.count = 1 := by decide
  ⟨Mutex.releasing_reachable, hp, hc, mutex_unlock_uncontended Mutex.releasing_reachable hp hc⟩

end results

end Osv.Lockfree
