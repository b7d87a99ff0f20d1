import Osv.Core.TraceRing
import Osv.Lib.Transition

/-!
# Concurrent calls of allocate_trace_record

**The model.**  `tracepointv::log` reserves its record with `allocate_trace_record`, whose only
synchronisation is the compare-and-swap loop on `trace_record_last`, and then stores the record
with plain writes.  A `LogThread` makes a list of such calls (`LogCall`), each cut at its
accesses to shared state: the relaxed load of `trace_record_last`, with the rounding of the size
before it; each `compare_exchange_weak`, with the page-crossing correction before it, which is
local; the store of the null `tp` at the replaced position; and the record's stores, as one
step.  A spurious failure of `compare_exchange_weak` reloads the value it did not replace, which
leaves the state as it was, so it needs no step of its own.  A `TraceRace` is the buffer, the
threads, and the sizes the successful compare-and-swaps reserved, in their order (a record of
the run, not program state); `traceRaceSystem` lets any thread take its next step.

**What holds.**  The successful compare-and-swaps are linearised by `trace_record_last`: they
make the reservations the sequential code makes for the same sizes (`reservations`, and the
invariant `RaceInv`).  Every record is aligned to a `long` and inside
one trace page; two records are disjoint modulo `max_trace` when the later one ends at most
`max_trace` bytes after the earlier one starts; and once the call that skipped the end of a
page has stored its null `tp`, that word stays null unless a record a whole turn of the buffer
away is stored over it (`trace_race_spec`).

**What does not hold.**  Records whose starts are less than `max_trace` apart can still
overlap, when the later one reaches past the earlier one's start plus `max_trace`; and a thread
that holds its record while the others go once round the buffer stores it over the null `tp`
of a newer gap, which then reads as a record to the decoder, though every call has returned
(`trace_race_overwrites_gap`).
-/

namespace Osv.Core

open Bytes Transition

/-- A call of `tracepointv::log`: the `size` it asks `allocate_trace_record` for, and the bytes
it then stores from the start of the record (`tp`, `thread`, `time`, `cpu`, the backtrace and
the arguments). -/
structure LogCall where
  size : ℕ
  stores : List UInt8
  deriving DecidableEq, Repr

namespace LogCall

/-- `size += sizeof(trace_record); size = align_up(size, sizeof(long))` -/
def reserved (c : LogCall) : ℕ := alignUp (c.size + traceRecordSize) 8

/-- A call whose record fits a trace page, and which stores no more than the header and the
`size` bytes it asked for. -/
def Fits (c : LogCall) : Prop :=
  c.size + traceRecordSize ≤ tracePageSize ∧ c.stores.length ≤ c.size + traceRecordSize

instance (c : LogCall) : Decidable c.Fits := inferInstanceAs (Decidable (_ ∧ _))

end LogCall

/-- Where a thread is in `tracepointv::log`: before `allocate_trace_record`, in its loop with
the rounded `size` and the local `p`, past the compare-and-swap that moved `trace_record_last`
from `p` to `pn`, or back in `log` with the record at `pn - size`. -/
inductive LogPc where
  | call
  | loop (size p : ℕ)
  | swapped (size p pn : ℕ)
  | stores (size pn : ℕ)
  deriving DecidableEq, Repr

/-- A thread: the calls of `log` it has still to make, the first of them under way. -/
structure LogThread where
  calls : List LogCall
  pc : LogPc
  deriving DecidableEq, Repr

/-- One access of a thread to the buffer: the new buffer, the thread, and the size that a
successful compare-and-swap reserved. -/
def LogThread.step (t : LogThread) (buf : TraceLog) : Option (TraceLog × LogThread × Option ℕ) :=
  match t.pc, t.calls with
  | .call, c :: cs => some (buf, ⟨c :: cs, .loop c.reserved buf.traceRecordLast⟩, none)
  | .loop size p, cs =>
      -- `compare_exchange_weak(p, pn)`; on failure `p` is the value it found
      if buf.traceRecordLast = p then
        some ({ buf with traceRecordLast := nextLast p size },
          ⟨cs, .swapped size p (nextLast p size)⟩, some size)
      else some (buf, ⟨cs, .loop size buf.traceRecordLast⟩, none)
  | .swapped size p pn, cs =>
      some ({ buf with traceLog := write buf.traceLog (p % maxTrace) (toListLE 8 0) },
        ⟨cs, .stores size pn⟩, none)
  | .stores size pn, c :: cs =>
      some ({ buf with traceLog := write buf.traceLog ((pn - size) % maxTrace) c.stores },
        ⟨cs, .call⟩, none)
  | _, [] => none

/-- `trace_log`, `trace_record_last` and the threads, with the sizes that the successful
compare-and-swaps reserved, in the order they happened. -/
structure TraceRace where
  buf : TraceLog
  threads : List LogThread
  sizes : List ℕ

namespace TraceRace

/-- The next step of thread `i`; none for a thread with no call left. -/
def step (r : TraceRace) (i : ℕ) : Option TraceRace :=
  (r.threads[i]?).bind fun t =>
    (t.step r.buf).map fun (buf, t', s) => ⟨buf, r.threads.set i t', r.sizes ++ s.toList⟩

/-- Each thread with its calls to make, over the empty buffer. -/
def init (calls : List (List LogCall)) : TraceRace :=
  ⟨TraceLog.init, calls.map (⟨·, .call⟩), []⟩

end TraceRace

/-- Any interleaving of the threads' steps. -/
def traceRaceSystem (calls : List (List LogCall)) : System TraceRace ℕ :=
  System.ofFun (· = TraceRace.init calls) TraceRace.step

/-! ## The reservations -/

/-- What one successful compare-and-swap reserved: it replaced `p` by `pn` for a record of
`size` bytes. -/
structure Reservation where
  p : ℕ
  pn : ℕ
  size : ℕ
  deriving DecidableEq, Repr

/-- `pn -= size`: where the record starts, before `% max_trace`. -/
def Reservation.start (q : Reservation) : ℕ := q.pn - q.size

/-- The reservations that successful compare-and-swaps for `sizes`, in this order, make from
`trace_record_last = p`. -/
def reservations : ℕ → List ℕ → List Reservation
  | _, [] => []
  | p, s :: ss => ⟨p, nextLast p s, s⟩ :: reservations (nextLast p s) ss

theorem reservations_cons (p s : ℕ) (ss : List ℕ) :
    reservations p (s :: ss) = ⟨p, nextLast p s, s⟩ :: reservations (nextLast p s) ss := rfl

/-- `trace_record_last` after them. -/
def lastAfter : ℕ → List ℕ → ℕ
  | p, [] => p
  | p, s :: ss => lastAfter (nextLast p s) ss

theorem lastAfter_append (p : ℕ) (ss ts : List ℕ) :
    lastAfter p (ss ++ ts) = lastAfter (lastAfter p ss) ts := by
  induction ss generalizing p with
  | nil => rfl
  | cons s ss ih => exact ih (nextLast p s)

theorem reservations_append (p : ℕ) (ss ts : List ℕ) :
    reservations p (ss ++ ts) = reservations p ss ++ reservations (lastAfter p ss) ts := by
  induction ss generalizing p with
  | nil => rfl
  | cons s ss ih => rw [List.cons_append, reservations_cons, reservations_cons, ih, List.cons_append]; rfl

/-- One more compare-and-swap reserves from where the others left `trace_record_last`. -/
theorem reservations_concat (p : ℕ) (ss : List ℕ) (s : ℕ) :
    reservations p (ss ++ [s]) =
      reservations p ss ++ [⟨lastAfter p ss, nextLast (lastAfter p ss) s, s⟩] := by
  rw [reservations_append, reservations_cons]
  rfl

theorem le_of_mem_reservations {q : Reservation} :
    ∀ {ss : List ℕ} {p : ℕ}, q ∈ reservations p ss → p ≤ q.p
  | [], _, h => by cases h
  | s :: ss, p, h => by
      rw [reservations_cons, List.mem_cons] at h
      rcases h with rfl | h
      · exact Nat.le_refl _
      · exact Nat.le_trans (Nat.le_trans (Nat.le_add_right p s) (le_nextLast p s))
          (le_of_mem_reservations h)

/-- **Reservations do not overlap.**  Of two reservations of a run, one ends before the other
begins. -/
theorem reservations_disjoint {q₁ q₂ : Reservation} :
    ∀ {ss : List ℕ} {p : ℕ}, q₁ ∈ reservations p ss → q₂ ∈ reservations p ss → q₁ ≠ q₂ →
      q₁.pn ≤ q₂.p ∨ q₂.pn ≤ q₁.p
  | [], _, h, _, _ => by cases h
  | s :: ss, p, h₁, h₂, hne => by
      rw [reservations_cons, List.mem_cons] at h₁ h₂
      rcases h₁ with rfl | h₁ <;> rcases h₂ with rfl | h₂
      · exact absurd rfl hne
      · exact .inl (le_of_mem_reservations h₂)
      · exact .inr (le_of_mem_reservations h₁)
      · exact reservations_disjoint h₁ h₂ hne

/-! ## Where a record goes -/

/-- `allocate_trace_record` on a record of at most a page: the record goes at `p`, or, when it
would reach the end of the page of `p`, at the start of the next page, the rest of this page
left as a gap.  A record that would end exactly at the end of the page moves too. -/
theorem nextLast_cases_le (p s : ℕ) (hs : s ≤ tracePageSize) :
    (nextLast p s = p + s ∧ p % tracePageSize + s ≤ tracePageSize) ∨
      (nextLast p s = p - p % tracePageSize + tracePageSize + s ∧ p % tracePageSize ≠ 0 ∧
        tracePageSize ≤ p % tracePageSize + s) := by
  unfold nextLast alignUp alignDown
  unfold tracePageSize at *
  split_ifs with h <;> omega

/-- A rounded size of a call whose record fits a page. -/
def SizeFits (s : ℕ) : Prop := s % 8 = 0 ∧ traceRecordSize ≤ s ∧ s ≤ tracePageSize

theorem LogCall.Fits.reserved {c : LogCall} (hc : c.Fits) :
    SizeFits c.reserved ∧ c.stores.length ≤ c.reserved := by
  have hup := le_alignUp (n := c.size + traceRecordSize) (show 0 < 8 by decide)
  obtain ⟨hpage, hstores⟩ := hc
  unfold SizeFits LogCall.reserved
  unfold alignUp alignDown tracePageSize traceRecordSize at *
  omega

/-- A reservation that `allocate_trace_record` makes from an aligned `trace_record_last`. -/
structure Reservation.WellFormed (q : Reservation) : Prop where
  p_mod : q.p % 8 = 0
  pn_eq : q.pn = nextLast q.p q.size
  size : SizeFits q.size

namespace Reservation

variable {q : Reservation}

/-- The record of a reservation: it ends where the reservation does, starts at or after `p`
at a multiple of `8`, lies inside one page, and leaves at most the rest of the page of `p`
before it. -/
theorem WellFormed.bounds (hq : q.WellFormed) :
    q.start + q.size = q.pn ∧ q.p ≤ q.start ∧ q.start % 8 = 0 ∧
      q.start % tracePageSize + q.size ≤ tracePageSize ∧ q.pn ≤ q.p + 2 * tracePageSize := by
  obtain ⟨hs8, hs32, hsp⟩ := hq.size
  have hp := hq.p_mod
  unfold start
  rw [hq.pn_eq]
  rcases nextLast_cases_le q.p q.size hsp with ⟨h1, h2⟩ | ⟨h1, h2, h3⟩ <;>
    · rw [h1]
      unfold tracePageSize at *
      omega

/-- A gap before the record holds at least the `tp` word. -/
theorem WellFormed.gap (hq : q.WellFormed) (h : q.p < q.start) : q.p + 8 ≤ q.start := by
  have := hq.bounds.2.2.1
  have := hq.p_mod
  omega

end Reservation

/-- The reservations of a run from an aligned position, of sizes that fit, are well formed. -/
theorem wellFormed_of_mem_reservations {q : Reservation} :
    ∀ {ss : List ℕ} {p : ℕ}, p % 8 = 0 → (∀ s ∈ ss, SizeFits s) → q ∈ reservations p ss →
      q.WellFormed
  | [], _, _, _, h => by cases h
  | s :: ss, p, hp, hss, h => by
      have hq₀ : (⟨p, nextLast p s, s⟩ : Reservation).WellFormed :=
        ⟨hp, rfl, hss s List.mem_cons_self⟩
      rw [reservations_cons, List.mem_cons] at h
      rcases h with rfl | h
      · exact hq₀
      · obtain ⟨hadd, -, hmod, -⟩ := hq₀.bounds
        have hs8 := (hss s List.mem_cons_self).1
        have hpn : nextLast p s % 8 = 0 := by
          simp only [Reservation.start] at hadd hmod
          omega
        exact wellFormed_of_mem_reservations hpn (fun s' h' => hss s' (List.mem_cons_of_mem s h')) h

/-! ## One step -/

namespace TraceRace

variable {r r' : TraceRace} {i : ℕ}

/-- **What a step can do.**  Thread `i` loads `trace_record_last`; fails a compare-and-swap and
takes the value it found; succeeds and reserves; stores the null `tp` at the replaced position;
or stores its record and returns from `log`. -/
theorem step_cases (h : r.step i = some r') :
    ∃ t, r.threads[i]? = some t ∧
      ((∃ c cs, t = ⟨c :: cs, .call⟩ ∧
          r' = ⟨r.buf, r.threads.set i ⟨c :: cs, .loop c.reserved r.buf.traceRecordLast⟩,
            r.sizes⟩) ∨
        (∃ s p, t.pc = .loop s p ∧ r.buf.traceRecordLast ≠ p ∧
          r' = ⟨r.buf, r.threads.set i ⟨t.calls, .loop s r.buf.traceRecordLast⟩, r.sizes⟩) ∨
        (∃ s, t.pc = .loop s r.buf.traceRecordLast ∧
          r' = ⟨{ r.buf with traceRecordLast := nextLast r.buf.traceRecordLast s },
            r.threads.set i
              ⟨t.calls, .swapped s r.buf.traceRecordLast (nextLast r.buf.traceRecordLast s)⟩,
            r.sizes ++ [s]⟩) ∨
        (∃ s p pn, t.pc = .swapped s p pn ∧
          r' = ⟨{ r.buf with traceLog := write r.buf.traceLog (p % maxTrace) (toListLE 8 0) },
            r.threads.set i ⟨t.calls, .stores s pn⟩, r.sizes⟩) ∨
        (∃ c cs s pn, t = ⟨c :: cs, .stores s pn⟩ ∧
          r' = ⟨{ r.buf with traceLog := write r.buf.traceLog ((pn - s) % maxTrace) c.stores },
            r.threads.set i ⟨cs, .call⟩, r.sizes⟩)) := by
  unfold step at h
  obtain ⟨t, ht, h⟩ := Option.bind_eq_some_iff.mp h
  obtain ⟨⟨buf, t', o⟩, hstep, rfl⟩ := Option.map_eq_some_iff.mp h
  refine ⟨t, ht, ?_⟩
  obtain ⟨calls, pc⟩ := t
  cases pc with
  | call =>
      cases calls with
      | nil => simp [LogThread.step] at hstep
      | cons c cs =>
          simp only [LogThread.step, Option.some.injEq, Prod.mk.injEq] at hstep
          obtain ⟨rfl, rfl, rfl⟩ := hstep
          exact .inl ⟨c, cs, rfl, by simp⟩
  | loop s p =>
      simp only [LogThread.step] at hstep
      split_ifs at hstep with hp
      · -- the compare-and-swap finds `p` and reserves
        simp only [Option.some.injEq, Prod.mk.injEq] at hstep
        obtain ⟨rfl, rfl, rfl⟩ := hstep
        subst hp
        exact .inr (.inr (.inl ⟨s, rfl, rfl⟩))
      · simp only [Option.some.injEq, Prod.mk.injEq] at hstep
        obtain ⟨rfl, rfl, rfl⟩ := hstep
        exact .inr (.inl ⟨s, p, rfl, hp, by simp⟩)
  | swapped s p pn =>
      simp only [LogThread.step, Option.some.injEq, Prod.mk.injEq] at hstep
      obtain ⟨rfl, rfl, rfl⟩ := hstep
      exact .inr (.inr (.inr (.inl ⟨s, p, pn, rfl, by simp⟩)))
  | stores s pn =>
      cases calls with
      | nil => simp [LogThread.step] at hstep
      | cons c cs =>
          simp only [LogThread.step, Option.some.injEq, Prod.mk.injEq] at hstep
          obtain ⟨rfl, rfl, rfl⟩ := hstep
          exact .inr (.inr (.inr (.inr ⟨c, cs, s, pn, rfl, by simp⟩)))

end TraceRace

/-! ## The invariant -/

/-- A store touches the bytes it covers and no other. -/
theorem write_apply_cases (m : Mem) (a : ℕ) (bs : List UInt8) (x : ℕ) :
    write m a bs x = m x ∨ (a ≤ x ∧ x < a + bs.length) := by
  by_cases h : a ≤ x ∧ x < a + bs.length
  · exact .inr h
  · exact .inl (write_apply_of_not_mem (by omega))

/-- The null `tp` reads as zero wherever it was stored. -/
theorem write_null_tp {m : Mem} {a x : ℕ} (h₁ : a ≤ x) (h₂ : x < a + 8) :
    write m a (toListLE 8 0) x = 0 := by
  obtain ⟨k, rfl⟩ := Nat.exists_eq_add_of_le h₁
  rw [write_apply_add (by rw [length_toListLE]; omega), toListLE_zero, List.getD_eq_getElem?_getD,
    List.getElem?_replicate, if_pos (by omega), Option.getD_some]

theorem mem_set_of_ne {α : Type*} {l : List α} {i : ℕ} {u t t' : α} (hu : l[i]? = some u)
    (ht : t ∈ l) (hne : t ≠ u) : t ∈ l.set i t' := by
  obtain ⟨j, hj⟩ := List.mem_iff_getElem?.mp ht
  have hij : i ≠ j := by
    rintro rfl
    exact hne (Option.some.inj (hj.symm.trans hu))
  exact List.mem_iff_getElem?.mpr ⟨j, by rw [List.getElem?_set_ne hij, hj]⟩

theorem forall_mem_set {α : Type*} {P : α → Prop} {l : List α} {i : ℕ} {t' : α}
    (hl : ∀ t ∈ l, P t) (ht' : P t') : ∀ t ∈ l.set i t', P t := fun t ht =>
  (List.mem_or_eq_of_mem_set ht).elim (hl t) fun h => h ▸ ht'

namespace LogThread

/-- What a thread's position says, against the reservations made so far: the size in its loop
is its call's, and past its compare-and-swap it holds one of the reservations. -/
def Holds (rs : List Reservation) (t : LogThread) : Prop :=
  match t.pc, t.calls with
  | .call, _ => True
  | .loop size _, c :: _ => size = c.reserved
  | .swapped size p pn, c :: _ => size = c.reserved ∧ ⟨p, pn, size⟩ ∈ rs
  | .stores size pn, c :: _ => size = c.reserved ∧ ∃ p, ⟨p, pn, size⟩ ∈ rs
  | _, [] => False

variable {rs rs' : List Reservation} {t : LogThread}

theorem Holds.mono (h : t.Holds rs) (hsub : ∀ q ∈ rs, q ∈ rs') : t.Holds rs' := by
  obtain ⟨calls, pc⟩ := t
  cases pc <;> cases calls <;> simp only [Holds] at h ⊢
  case loop.cons => exact h
  case swapped.cons => exact ⟨h.1, hsub _ h.2⟩
  case stores.cons =>
    obtain ⟨hs, p, hp⟩ := h
    exact ⟨hs, p, hsub _ hp⟩

theorem Holds.loop {s p : ℕ} (h : t.Holds rs) (hpc : t.pc = .loop s p) :
    ∃ c cs, t.calls = c :: cs ∧ s = c.reserved := by
  obtain ⟨calls, pc⟩ := t
  subst hpc
  cases calls with
  | nil => exact h.elim
  | cons c cs => exact ⟨c, cs, rfl, h⟩

theorem Holds.swapped {s p pn : ℕ} (h : t.Holds rs) (hpc : t.pc = .swapped s p pn) :
    ∃ c cs, t.calls = c :: cs ∧ s = c.reserved ∧ ⟨p, pn, s⟩ ∈ rs := by
  obtain ⟨calls, pc⟩ := t
  subst hpc
  cases calls with
  | nil => exact h.elim
  | cons c cs => exact ⟨c, cs, rfl, h⟩

theorem Holds.stores {s pn : ℕ} (h : t.Holds rs) (hpc : t.pc = .stores s pn) :
    ∃ p, ⟨p, pn, s⟩ ∈ rs := by
  obtain ⟨calls, pc⟩ := t
  subst hpc
  cases calls with
  | nil => exact h.elim
  | cons c cs => exact h.2

end LogThread

/-- A thread has reserved `q` and has not yet stored the null `tp` at `q.p`. -/
def Pending (ts : List LogThread) (q : Reservation) : Prop :=
  ∃ t ∈ ts, t.pc = .swapped q.size q.p q.pn

/-- A step of a thread that is not about to store the null `tp` of `q` keeps `q` pending. -/
theorem Pending.set {ts : List LogThread} {i : ℕ} {u t' : LogThread} {q : Reservation}
    (hu : ts[i]? = some u) (hpc : u.pc ≠ .swapped q.size q.p q.pn) (h : Pending ts q) :
    Pending (ts.set i t') q := by
  obtain ⟨t, ht, htpc⟩ := h
  exact ⟨t, mem_set_of_ne hu ht (by rintro rfl; exact hpc htpc), htpc⟩

/-- Byte `x` of `trace_log` lies in the record of one of the reservations `rs`. -/
def Covered (rs : List Reservation) (x : ℕ) : Prop :=
  ∃ q ∈ rs, ∃ y < q.size, (q.start + y) % maxTrace = x

theorem Covered.mono {rs rs' : List Reservation} {x : ℕ} (h : Covered rs x)
    (hsub : ∀ q ∈ rs, q ∈ rs') : Covered rs' x := by
  obtain ⟨q, hq, y, hy, hx⟩ := h
  exact ⟨q, hsub q hq, y, hy, hx⟩

/-- **The invariant of every interleaving.**  `trace_record_last` is where the successful
compare-and-swaps, in their order, left it; each thread's position agrees with its call and
the reservations; and the `tp` at the start of each reservation is either still to be stored,
or null, or inside some record. -/
structure RaceInv (r : TraceRace) : Prop where
  last : r.buf.traceRecordLast = lastAfter 0 r.sizes
  sizes : ∀ s ∈ r.sizes, SizeFits s
  calls : ∀ t ∈ r.threads, ∀ c ∈ t.calls, c.Fits
  holds : ∀ t ∈ r.threads, t.Holds (reservations 0 r.sizes)
  pads : ∀ q ∈ reservations 0 r.sizes, Pending r.threads q ∨
    ∀ k < 8, r.buf.traceLog ((q.p + k) % maxTrace) = 0 ∨
      Covered (reservations 0 r.sizes) ((q.p + k) % maxTrace)

namespace RaceInv

variable {r : TraceRace}

theorem wellFormed (hinv : RaceInv r) {q : Reservation} (hq : q ∈ reservations 0 r.sizes) :
    q.WellFormed :=
  wellFormed_of_mem_reservations (Nat.zero_mod 8) hinv.sizes hq

theorem init {calls : List (List LogCall)} (hfit : ∀ cs ∈ calls, ∀ c ∈ cs, c.Fits) :
    RaceInv (TraceRace.init calls) where
  last := rfl
  sizes := fun _ h => by cases h
  calls := by
    intro t ht
    obtain ⟨cs, hcs, rfl⟩ := List.mem_map.mp ht
    exact hfit cs hcs
  holds := by
    intro t ht
    obtain ⟨cs, -, rfl⟩ := List.mem_map.mp ht
    trivial
  pads := fun _ h => by cases h

/-! ## Each step keeps the invariant -/

variable {i : ℕ}

/-- The load at the head of `allocate_trace_record`. -/
theorem call_step (hinv : RaceInv r) {c : LogCall} {cs : List LogCall}
    (hu : r.threads[i]? = some ⟨c :: cs, .call⟩) :
    RaceInv ⟨r.buf, r.threads.set i ⟨c :: cs, .loop c.reserved r.buf.traceRecordLast⟩,
      r.sizes⟩ where
  last := hinv.last
  sizes := hinv.sizes
  calls := forall_mem_set hinv.calls fun c' hc' => hinv.calls _ (List.mem_of_getElem? hu) c' hc'
  holds := forall_mem_set hinv.holds rfl
  pads q hq := (hinv.pads q hq).imp_left (Pending.set hu nofun)

/-- A compare-and-swap that finds another value takes it as its `p`. -/
theorem fail_step (hinv : RaceInv r) {t : LogThread} {s p : ℕ} (ht : r.threads[i]? = some t)
    (hpc : t.pc = .loop s p) :
    RaceInv ⟨r.buf, r.threads.set i ⟨t.calls, .loop s r.buf.traceRecordLast⟩, r.sizes⟩ where
  last := hinv.last
  sizes := hinv.sizes
  calls := forall_mem_set hinv.calls (hinv.calls t (List.mem_of_getElem? ht))
  holds := by
    obtain ⟨c, cs, hcalls, hs⟩ := (hinv.holds t (List.mem_of_getElem? ht)).loop hpc
    refine forall_mem_set hinv.holds ?_
    rw [hcalls]
    exact hs
  pads q hq := (hinv.pads q hq).imp_left (Pending.set ht (by rw [hpc]; nofun))

/-- **The linearisation point.**  A compare-and-swap that finds `trace_record_last` unchanged
makes the next reservation of the sequential code. -/
theorem cas_step (hinv : RaceInv r) {t : LogThread} {s : ℕ} (ht : r.threads[i]? = some t)
    (hpc : t.pc = .loop s r.buf.traceRecordLast) :
    RaceInv ⟨{ r.buf with traceRecordLast := nextLast r.buf.traceRecordLast s },
      r.threads.set i
        ⟨t.calls, .swapped s r.buf.traceRecordLast (nextLast r.buf.traceRecordLast s)⟩,
      r.sizes ++ [s]⟩ := by
  have htm := List.mem_of_getElem? ht
  obtain ⟨c, cs, hcalls, hs⟩ := (hinv.holds t htm).loop hpc
  have hfit := (hinv.calls t htm c (by rw [hcalls]; exact List.mem_cons_self)).reserved
  have hres : reservations 0 (r.sizes ++ [s]) = reservations 0 r.sizes ++
      [⟨r.buf.traceRecordLast, nextLast r.buf.traceRecordLast s, s⟩] := by
    rw [reservations_concat, hinv.last]
  have hsub : ∀ q ∈ reservations 0 r.sizes, q ∈ reservations 0 (r.sizes ++ [s]) := fun q hq => by
    rw [hres]
    exact List.mem_append_left _ hq
  refine ⟨?_, ?_, forall_mem_set hinv.calls (hinv.calls t htm), ?_, ?_⟩
  · show nextLast r.buf.traceRecordLast s = lastAfter 0 (r.sizes ++ [s])
    rw [lastAfter_append, ← hinv.last]
    rfl
  · intro s' hs'
    rcases List.mem_append.mp hs' with h | h
    · exact hinv.sizes s' h
    · rw [List.mem_singleton.mp h, hs]
      exact hfit.1
  · refine forall_mem_set (fun t' ht' => (hinv.holds t' ht').mono hsub) ?_
    rw [hcalls]
    exact ⟨hs, by rw [hres]; exact List.mem_append_right _ (List.mem_singleton_self _)⟩
  · intro q hq
    rw [hres] at hq
    rcases List.mem_append.mp hq with hq | hq
    · rcases hinv.pads q hq with hpend | hpad
      · exact .inl (hpend.set ht (by rw [hpc]; nofun))
      · exact .inr fun k hk => (hpad k hk).imp_right fun hc => hc.mono hsub
    · -- the new reservation waits for its null `tp`
      rw [List.mem_singleton.mp hq]
      exact .inl ⟨_, List.mem_set (List.getElem?_eq_some_iff.mp ht).1 _, rfl⟩

/-- The null `tp` stored at the replaced position. -/
theorem clear_step (hinv : RaceInv r) {t : LogThread} {s p pn : ℕ} (ht : r.threads[i]? = some t)
    (hpc : t.pc = .swapped s p pn) :
    RaceInv ⟨{ r.buf with traceLog := write r.buf.traceLog (p % maxTrace) (toListLE 8 0) },
      r.threads.set i ⟨t.calls, .stores s pn⟩, r.sizes⟩ := by
  have htm := List.mem_of_getElem? ht
  obtain ⟨c, cs, hcalls, hs, hmem⟩ := (hinv.holds t htm).swapped hpc
  refine ⟨hinv.last, hinv.sizes, forall_mem_set hinv.calls (hinv.calls t htm), ?_, ?_⟩
  · refine forall_mem_set hinv.holds ?_
    rw [hcalls]
    exact ⟨hs, p, hmem⟩
  · intro q hq
    by_cases hown : t.pc = .swapped q.size q.p q.pn
    · -- this is the store of `q`'s own null `tp`
      rw [hpc, LogPc.swapped.injEq] at hown
      obtain ⟨rfl, rfl, rfl⟩ := hown
      have hp8 := (hinv.wellFormed hq).p_mod
      refine .inr fun k hk => .inl (write_null_tp ?_ ?_) <;>
        · unfold maxTrace tracePageSize
          omega
    · rcases hinv.pads q hq with hpend | hpad
      · exact .inl (hpend.set ht hown)
      · refine .inr fun k hk => ?_
        rcases write_apply_cases r.buf.traceLog (p % maxTrace) (toListLE 8 0)
            ((q.p + k) % maxTrace) with h | h
        · dsimp only
          rw [h]
          exact hpad k hk
        · exact .inl (write_null_tp h.1 (by simpa using h.2))

/-- The record's stores, and the return from `log`. -/
theorem store_step (hinv : RaceInv r) {c : LogCall} {cs : List LogCall} {s pn : ℕ}
    (ht : r.threads[i]? = some ⟨c :: cs, .stores s pn⟩) :
    RaceInv ⟨{ r.buf with traceLog := write r.buf.traceLog ((pn - s) % maxTrace) c.stores },
      r.threads.set i ⟨cs, .call⟩, r.sizes⟩ := by
  have htm := List.mem_of_getElem? ht
  obtain ⟨hs, p, hmem⟩ : s = c.reserved ∧ ∃ p, (⟨p, pn, s⟩ : Reservation) ∈ reservations 0 r.sizes :=
    hinv.holds _ htm
  have hlen := (hinv.calls _ htm c List.mem_cons_self).reserved.2
  obtain ⟨-, -, -, hpage, -⟩ := (hinv.wellFormed hmem).bounds
  refine ⟨hinv.last, hinv.sizes,
    forall_mem_set hinv.calls fun c' hc' => hinv.calls _ htm c' (List.mem_cons_of_mem c hc'),
    forall_mem_set hinv.holds trivial, ?_⟩
  intro q hq
  rcases hinv.pads q hq with hpend | hpad
  · exact .inl (hpend.set ht nofun)
  · refine .inr fun k hk => ?_
    rcases write_apply_cases r.buf.traceLog ((pn - s) % maxTrace) c.stores
        ((q.p + k) % maxTrace) with h | h
    · dsimp only
      rw [h]
      exact hpad k hk
    · -- the byte now belongs to this call's record
      refine .inr ⟨⟨p, pn, s⟩, hmem, (q.p + k) % maxTrace - (pn - s) % maxTrace,
        show _ < s by omega, ?_⟩
      simp only [Reservation.start] at hpage ⊢
      unfold maxTrace tracePageSize at *
      omega

theorem step (hinv : RaceInv r) {r' : TraceRace} (h : r.step i = some r') : RaceInv r' := by
  obtain ⟨t, ht, hcase⟩ := TraceRace.step_cases h
  rcases hcase with ⟨c, cs, rfl, rfl⟩ | ⟨s, p, hpc, -, rfl⟩ | ⟨s, hpc, rfl⟩ |
      ⟨s, p, pn, hpc, rfl⟩ | ⟨c, cs, s, pn, rfl, rfl⟩
  · exact hinv.call_step ht
  · exact hinv.fail_step ht hpc
  · exact hinv.cas_step ht hpc
  · exact hinv.clear_step ht hpc
  · exact hinv.store_step ht

/-- **The invariant rule.**  Every interleaving of calls that fit keeps the invariant. -/
theorem reachable {calls : List (List LogCall)} (hfit : ∀ cs ∈ calls, ∀ c ∈ cs, c.Fits)
    (hr : Reachable (traceRaceSystem calls) r) : RaceInv r :=
  Inductive.reachable ⟨fun _ h => h ▸ init hfit, fun _ _ _ hinv h => hinv.step h⟩ hr

end RaceInv

/-! ## What every interleaving guarantees -/

/-- Two byte ranges of the offsets before `% max_trace`, the later one ending within
`max_trace` bytes of the earlier one's start, are disjoint in `trace_log`. -/
theorem mod_ne_of_window {a b s t x y : ℕ} (hab : a + s ≤ b) (hwin : b + t ≤ a + maxTrace)
    (hx : x < s) (hy : y < t) : (a + x) % maxTrace ≠ (b + y) % maxTrace := by
  unfold maxTrace tracePageSize at *
  omega

/-- Two offsets that meet in `trace_log` are equal or a whole turn of the buffer apart. -/
theorem turn_apart {a b : ℕ} (hne : a ≠ b) (h : a % maxTrace = b % maxTrace) :
    a + maxTrace ≤ b ∨ b + maxTrace ≤ a := by
  unfold maxTrace tracePageSize at *
  omega

/-- The `tp` word of a gap lies in no record of the run, that of its own reservation included:
every record starts after the gap or ends before its reservation. -/
theorem ne_of_gap {ss : List ℕ} (hss : ∀ s ∈ ss, SizeFits s) {q q' : Reservation}
    (hq : q ∈ reservations 0 ss) (hq' : q' ∈ reservations 0 ss) (hgap : q.p < q.start)
    {k y : ℕ} (hk : k < 8) (hy : y < q'.size) : q'.start + y ≠ q.p + k := by
  have hwf := wellFormed_of_mem_reservations (Nat.zero_mod 8) hss hq
  have hwf' := wellFormed_of_mem_reservations (Nat.zero_mod 8) hss hq'
  have hgap8 := hwf.gap hgap
  obtain ⟨hadd, hle, -⟩ := hwf.bounds
  obtain ⟨hadd', hle', -⟩ := hwf'.bounds
  by_cases hself : q' = q
  · subst hself
    omega
  · rcases reservations_disjoint hq' hq hself with h | h <;> omega

/-- What `allocate_trace_record` guarantees in a state: each record returned to a thread is one
of the reservations; the record of each reservation is aligned to a `long` and lies inside one
trace page of `trace_log`; two records are disjoint there when the later one ends within
`max_trace` bytes of the earlier one's start; and the `tp` at the start of a gap, once its call
has stored it, is null or lies in a record a whole turn of the buffer away. -/
structure AllocSpec (r : TraceRace) : Prop where
  returned : ∀ t ∈ r.threads, ∀ s pn, t.pc = .stores s pn →
    ∃ p, ⟨p, pn, s⟩ ∈ reservations 0 r.sizes
  aligned : ∀ q ∈ reservations 0 r.sizes, q.start % maxTrace % 8 = 0
  onePage : ∀ q ∈ reservations 0 r.sizes,
    q.start % maxTrace % tracePageSize + q.size ≤ tracePageSize
  disjoint : ∀ q₁ ∈ reservations 0 r.sizes, ∀ q₂ ∈ reservations 0 r.sizes, q₁ ≠ q₂ →
    q₁.start ≤ q₂.start → q₂.start + q₂.size ≤ q₁.start + maxTrace →
      ∀ x < q₁.size, ∀ y < q₂.size, (q₁.start + x) % maxTrace ≠ (q₂.start + y) % maxTrace
  gaps : ∀ q ∈ reservations 0 r.sizes, q.p < q.start → ¬ Pending r.threads q →
    ∀ k < 8, r.buf.traceLog ((q.p + k) % maxTrace) = 0 ∨
      ∃ q' ∈ reservations 0 r.sizes, ∃ y < q'.size,
        (q'.start + y) % maxTrace = (q.p + k) % maxTrace ∧
          (q'.start + y + maxTrace ≤ q.p + k ∨ q.p + k + maxTrace ≤ q'.start + y)

theorem RaceInv.allocSpec {r : TraceRace} (hinv : RaceInv r) : AllocSpec r where
  returned t ht _ _ hpc := (hinv.holds t ht).stores hpc
  aligned q hq := by
    have := (hinv.wellFormed hq).bounds.2.2.1
    unfold maxTrace tracePageSize
    omega
  onePage q hq := by
    have := (hinv.wellFormed hq).bounds.2.2.2.1
    unfold maxTrace tracePageSize at *
    omega
  disjoint q₁ hq₁ q₂ hq₂ hne hle hwin x hx y hy := by
    obtain ⟨hadd₁, hle₁, -⟩ := (hinv.wellFormed hq₁).bounds
    obtain ⟨hadd₂, hle₂, -, -, -⟩ := (hinv.wellFormed hq₂).bounds
    have hpos := (hinv.wellFormed hq₂).size.2.1
    unfold traceRecordSize at hpos
    rcases reservations_disjoint hq₁ hq₂ hne with h | h
    · exact mod_ne_of_window (by omega) hwin hx hy
    · -- the second ends before the first begins, against `q₁.start ≤ q₂.start`
      omega
  gaps q hq hgap hnp k hk := by
    rcases hinv.pads q hq with hpend | hpad
    · exact absurd hpend hnp
    · refine (hpad k hk).imp_right fun ⟨q', hq', y, hy, hx⟩ => ⟨q', hq', y, hy, hx, ?_⟩
      exact turn_apart (ne_of_gap hinv.sizes hq hq' hgap hk hy) hx

/-! ## A call that runs alone -/

namespace TraceRace

variable {r : TraceRace} {i : ℕ} {c : LogCall} {cs : List LogCall}

/-- Thread `i`'s `allocate_trace_record` when no other thread runs in between: the load, the
compare-and-swap, and the null `tp`. -/
def reserveAlone (r : TraceRace) (i : ℕ) (c : LogCall) (cs : List LogCall) : TraceRace :=
  let p := r.buf.traceRecordLast
  ⟨⟨write r.buf.traceLog (p % maxTrace) (toListLE 8 0), nextLast p c.reserved⟩,
    r.threads.set i ⟨c :: cs, .stores c.reserved (nextLast p c.reserved)⟩,
    r.sizes ++ [c.reserved]⟩

theorem step_call (ht : r.threads[i]? = some ⟨c :: cs, .call⟩) :
    r.step i = some ⟨r.buf, r.threads.set i ⟨c :: cs, .loop c.reserved r.buf.traceRecordLast⟩,
      r.sizes⟩ := by
  simp [step, ht, LogThread.step]

theorem step_cas {t : LogThread} {s : ℕ} (ht : r.threads[i]? = some t)
    (hpc : t.pc = .loop s r.buf.traceRecordLast) :
    r.step i = some ⟨{ r.buf with traceRecordLast := nextLast r.buf.traceRecordLast s },
      r.threads.set i
        ⟨t.calls, .swapped s r.buf.traceRecordLast (nextLast r.buf.traceRecordLast s)⟩,
      r.sizes ++ [s]⟩ := by
  obtain ⟨calls, pc⟩ := t
  subst hpc
  simp [step, ht, LogThread.step]

theorem step_clear {t : LogThread} {s p pn : ℕ} (ht : r.threads[i]? = some t)
    (hpc : t.pc = .swapped s p pn) :
    r.step i = some ⟨{ r.buf with traceLog := write r.buf.traceLog (p % maxTrace) (toListLE 8 0) },
      r.threads.set i ⟨t.calls, .stores s pn⟩, r.sizes⟩ := by
  obtain ⟨calls, pc⟩ := t
  subst hpc
  simp [step, ht, LogThread.step]

theorem step_stores {s pn : ℕ} (ht : r.threads[i]? = some ⟨c :: cs, .stores s pn⟩) :
    r.step i = some ⟨{ r.buf with traceLog := write r.buf.traceLog ((pn - s) % maxTrace) c.stores },
      r.threads.set i ⟨cs, .call⟩, r.sizes⟩ := by
  simp [step, ht, LogThread.step]

theorem runFrom_reserveAlone (ht : r.threads[i]? = some ⟨c :: cs, .call⟩) :
    runFrom step r [i, i, i] = some (r.reserveAlone i c cs) := by
  have hi : i < r.threads.length := (List.getElem?_eq_some_iff.mp ht).1
  rw [runFrom_cons, step_call ht, Option.bind_some, runFrom_cons,
    step_cas (r := ⟨r.buf, r.threads.set i _, r.sizes⟩) (List.getElem?_set_self hi) rfl,
    Option.bind_some, runFrom_cons,
    step_clear (r := ⟨_, (r.threads.set i _).set i _, _⟩)
      (List.getElem?_set_self (by simpa using hi)) rfl,
    Option.bind_some, runFrom_nil]
  simp [reserveAlone]

end TraceRace

theorem write_nil (m : Mem) (a : ℕ) : write m a [] = m := by
  funext x
  rw [write, if_neg (by simp)]

theorem write_null_tp_zero (a : ℕ) : write (fun _ => 0) a (toListLE 8 0) = fun _ => 0 := by
  funext x
  rcases write_apply_cases (fun _ => 0) a (toListLE 8 0) x with h | h
  · exact h
  · exact write_null_tp h.1 (by simpa using h.2)

/-- **A thread alone over an empty buffer.**  Calls that store nothing, made one after another
by thread `i` with no other thread running, leave the buffer empty and `trace_record_last`
where the sequential code leaves it. -/
theorem reachable_quiet_calls {calls : List (List LogCall)} {i : ℕ} :
    ∀ (cs : List LogCall) {rest : List LogCall} {r : TraceRace},
      Reachable (traceRaceSystem calls) r → r.threads[i]? = some ⟨cs ++ rest, .call⟩ →
      (∀ c ∈ cs, c.stores = []) → r.buf.traceLog = (fun _ => 0) →
      ∃ r', Reachable (traceRaceSystem calls) r' ∧
        r'.buf = ⟨fun _ => 0, lastAfter r.buf.traceRecordLast (cs.map LogCall.reserved)⟩ ∧
        r'.threads = r.threads.set i ⟨rest, .call⟩ ∧ r'.sizes = r.sizes ++ cs.map LogCall.reserved
  | [], rest, r, hr, ht, _, hlog => by
      refine ⟨r, hr, by rw [← hlog]; rfl, ?_, by simp⟩
      obtain ⟨hi, heq⟩ := List.getElem?_eq_some_iff.mp ht
      rw [List.nil_append] at heq
      rw [← heq, List.set_getElem_self]
  | c :: cs, rest, r, hr, ht, hquiet, hlog => by
      rw [List.cons_append] at ht
      have hi : i < r.threads.length := (List.getElem?_eq_some_iff.mp ht).1
      -- the first call runs alone: `allocate_trace_record`, then its stores
      have hstep := @TraceRace.step_stores (r.reserveAlone i c (cs ++ rest)) i c (cs ++ rest)
        c.reserved (nextLast r.buf.traceRecordLast c.reserved) (by simp [TraceRace.reserveAlone, hi])
      have hr₁ := Reachable.step (reachable_of_runFrom hr (TraceRace.runFrom_reserveAlone ht)) hstep
      -- then the others, by induction
      obtain ⟨r', hr', hbuf, hth, hsz⟩ := reachable_quiet_calls (i := i) cs hr₁
        (show _ = some (⟨cs ++ rest, .call⟩ : LogThread) by simp [TraceRace.reserveAlone, hi])
        (fun c' hc' => hquiet c' (List.mem_cons_of_mem c hc'))
        (by simp [TraceRace.reserveAlone, hlog, hquiet c List.mem_cons_self, write_nil,
          write_null_tp_zero])
      refine ⟨r', hr', by rw [hbuf]; rfl, by simp [hth, TraceRace.reserveAlone], ?_⟩
      simp [hsz, TraceRace.reserveAlone]

theorem nextLast_page (j : ℕ) :
    nextLast (tracePageSize * j) tracePageSize = tracePageSize * (j + 1) := by
  unfold nextLast alignUp alignDown tracePageSize
  split_ifs <;> omega

/-- Calls of a whole page each, from the start of a page, take one page each. -/
theorem lastAfter_replicate_page (j k : ℕ) :
    lastAfter (tracePageSize * j) (List.replicate k tracePageSize) = tracePageSize * (j + k) := by
  induction k generalizing j with
  | zero => rfl
  | succ k ih =>
      rw [List.replicate_succ, lastAfter, nextLast_page, ih]
      congr 1
      omega

/-! ## Every reachable state -/

/-- **`allocate_trace_record` under any interleaving.**  In every state that the threads reach
from the empty buffer by calls that fit a page, the guarantees of `AllocSpec` hold. -/
theorem trace_race_spec {calls : List (List LogCall)} (hfit : ∀ cs ∈ calls, ∀ c ∈ cs, c.Fits)
    {r : TraceRace} (hr : Reachable (traceRaceSystem calls) r) : AllocSpec r :=
  (RaceInv.reachable hfit hr).allocSpec

/-- Thread `0` makes two calls alone, the second of which does not fit what is left of the first
trace page and skips to the next; then thread `1` reserves a record and has still to store
its bytes. -/
def gapThreads : List (List LogCall) := [[⟨4024, []⟩, ⟨64, []⟩], [⟨16, [1]⟩]]

/-- The state after the calls of `gapThreads`, thread `1` holding its record. -/
theorem gap_run : ∃ r, Reachable (traceRaceSystem gapThreads) r ∧ r.sizes = [4056, 96, 48] ∧
    r.threads[1]? = some ⟨[⟨16, [1]⟩], .stores 48 4240⟩ := by
  obtain ⟨r₁, hr₁, hbuf₁, hth₁, hsz₁⟩ := @reachable_quiet_calls gapThreads 0 [⟨4024, []⟩, ⟨64, []⟩]
    [] (TraceRace.init gapThreads) (.init rfl) rfl (by decide) rfl
  have hlast₁ : r₁.buf.traceRecordLast = 4192 := by rw [hbuf₁]; decide
  have ht₁ : r₁.threads[1]? = some ⟨[⟨16, [1]⟩], .call⟩ := by rw [hth₁]; rfl
  refine ⟨_, reachable_of_runFrom hr₁ (TraceRace.runFrom_reserveAlone ht₁), ?_, ?_⟩
  · simp [TraceRace.reserveAlone, hsz₁, TraceRace.init, LogCall.reserved]
    decide
  · simp [TraceRace.reserveAlone, hth₁, hlast₁, TraceRace.init, LogCall.reserved]
    decide

/-- After the calls of `gapThreads`: the record of `64` bytes skipped the end of the first page,
from `4056` to `4096`, and thread `1` holds the record it reserved at `4192`. -/
theorem trace_race_spec_gap : (∀ cs ∈ gapThreads, ∀ c ∈ cs, c.Fits) ∧
    ∃ r, Reachable (traceRaceSystem gapThreads) r ∧ (⟨4056, 4192, 96⟩ : Reservation) ∈ reservations 0 r.sizes ∧
      ⟨[⟨16, [1]⟩], .stores 48 4240⟩ ∈ r.threads ∧ AllocSpec r :=
  have hfit : ∀ cs ∈ gapThreads, ∀ c ∈ cs, c.Fits := by decide
  have ⟨r, hr, hsz, ht⟩ := gap_run
  ⟨hfit, r, hr, by rw [hsz]; decide, List.mem_of_getElem? ht, trace_race_spec hfit hr⟩

/-! ## A record held for a turn of the buffer -/

/-- A call whose record fills a page, storing nothing. -/
def pageCall : LogCall := ⟨tracePageSize - traceRecordSize, []⟩

/-- A small record whose `tp` and `thread` are not null. -/
def heldCall : LogCall := ⟨0, List.replicate 16 1⟩

/-- What thread `1` logs after its first record: `1023` records of a page, then one of `4064`
bytes and one more of a page, which leaves the rest of that page as a gap. -/
def turnCalls : List LogCall := List.replicate 1023 pageCall ++ [⟨4032, []⟩, pageCall]

/-- Thread `0` logs `heldCall`; thread `1` logs a record of `4056` bytes and then `turnCalls`. -/
def turnThreads : List (List LogCall) := [[heldCall], ⟨4024, []⟩ :: turnCalls]

theorem turnThreads_fit : ∀ cs ∈ turnThreads, ∀ c ∈ cs, c.Fits := by
  have hpage : pageCall.Fits := by decide
  intro cs hcs c hc
  simp only [turnThreads, List.mem_cons, List.not_mem_nil, or_false] at hcs
  rcases hcs with rfl | rfl
  · rw [List.mem_singleton.mp hc]
    decide
  · simp only [turnCalls, List.mem_cons, List.mem_append, List.mem_replicate, List.not_mem_nil,
      or_false] at hc
    rcases hc with rfl | ⟨-, rfl⟩ | rfl | rfl
    · decide
    · exact hpage
    · decide
    · exact hpage

theorem map_reserved_turnCalls :
    turnCalls.map LogCall.reserved = List.replicate 1023 tracePageSize ++ [4064, tracePageSize] := by
  rw [turnCalls, List.map_append, List.map_replicate]
  rfl

/-- The sizes the compare-and-swaps of the run reserve, in their order. -/
def turnSizes : List ℕ := [4056, 32] ++ (List.replicate 1023 tracePageSize ++ [4064, tracePageSize])

theorem turnCalls_quiet : ∀ c ∈ turnCalls, c.stores = [] := by
  intro c hc
  rcases List.mem_append.mp hc with h | h
  · rw [List.eq_of_mem_replicate h]
    rfl
  · simp only [List.mem_cons, List.not_mem_nil, or_false] at h
    rcases h with rfl | rfl <;> rfl

/-- **The run.**  Thread `1` logs its first record; thread `0` reserves its record right after
it and is held before its stores; thread `1` logs the rest, once round the buffer; thread `0`
stores its record. -/
theorem turn_run : ∃ r, Reachable (traceRaceSystem turnThreads) r ∧
    r.buf.traceLog = write (fun _ => 0) 4056 heldCall.stores ∧
    r.threads = [⟨[], .call⟩, ⟨[], .call⟩] ∧ r.sizes = turnSizes := by
  obtain ⟨r₁, hr₁, hbuf₁, hth₁, hsz₁⟩ := @reachable_quiet_calls turnThreads 1 [⟨4024, []⟩]
    turnCalls (TraceRace.init turnThreads) (.init rfl) rfl (by simp) rfl
  have hlast₁ : r₁.buf.traceRecordLast = 4056 := by rw [hbuf₁]; decide
  -- thread 0 reserves and is held
  have ht₀ : r₁.threads[0]? = some ⟨[heldCall], .call⟩ := by rw [hth₁]; rfl
  have hr₂ := reachable_of_runFrom hr₁ (TraceRace.runFrom_reserveAlone ht₀)
  obtain ⟨r₃, hr₃, hbuf₃, hth₃, hsz₃⟩ := @reachable_quiet_calls turnThreads 1 turnCalls []
    (r₁.reserveAlone 0 heldCall []) hr₂
    (by rw [List.append_nil, TraceRace.reserveAlone, hth₁]; rfl) turnCalls_quiet
    (by simp [TraceRace.reserveAlone, hbuf₁, write_null_tp_zero])
  -- thread 0 stores its record
  have hst := @TraceRace.step_stores r₃ 0 heldCall [] heldCall.reserved
    (nextLast r₁.buf.traceRecordLast heldCall.reserved)
    (by rw [hth₃, TraceRace.reserveAlone, hth₁]; rfl)
  refine ⟨_, Reachable.step hr₃ hst, ?_, ?_, ?_⟩
  · simp only [hbuf₃, hlast₁]
    rfl
  · rw [hth₃, TraceRace.reserveAlone, hth₁]
    rfl
  · show r₃.sizes = turnSizes
    rw [hsz₃]
    show (r₁.sizes ++ [heldCall.reserved]) ++ turnCalls.map LogCall.reserved = turnSizes
    rw [hsz₁, map_reserved_turnCalls]
    rfl

/-- Where the records of the run went: thread `0`'s at `4056`, the `4064` bytes at the start of
the second turn, and the gap after them. -/
theorem turn_reservations :
    (⟨4056, 4088, 32⟩ : Reservation) ∈ reservations 0 turnSizes ∧
      (⟨maxTrace, maxTrace + 4064, 4064⟩ : Reservation) ∈ reservations 0 turnSizes ∧
      (⟨maxTrace + 4064, maxTrace + 8192, tracePageSize⟩ : Reservation) ∈
        reservations 0 turnSizes := by
  have hturn : lastAfter 4088 (List.replicate 1023 tracePageSize) = maxTrace := by
    rw [List.replicate_succ, lastAfter,
      show nextLast 4088 tracePageSize = tracePageSize * 2 by decide, lastAfter_replicate_page]
    rfl
  have hrest : reservations maxTrace [4064, tracePageSize] =
      [⟨maxTrace, maxTrace + 4064, 4064⟩, ⟨maxTrace + 4064, maxTrace + 8192, tracePageSize⟩] := by
    decide
  rw [turnSizes, reservations_append, reservations_append,
    show lastAfter 0 [4056, 32] = 4088 by decide, hturn, hrest]
  refine ⟨List.mem_append_left _ (by decide), List.mem_append_right _ (List.mem_append_right _ ?_),
    List.mem_append_right _ (List.mem_append_right _ ?_)⟩ <;> simp

/-- **Once the buffer wraps, two records may share bytes and a gap may not start null.**  Records that fit a page,
in an interleaving that ends with every call returned: the record at `4056` and the one at
`max_trace` start less than `max_trace` apart and share bytes of `trace_log`; and the gap at
`max_trace + 4064`, whose call stored its null `tp`, has the byte of thread `0`'s held record
there. -/
theorem trace_race_overwrites_gap :
    ∃ calls : List (List LogCall), (∀ cs ∈ calls, ∀ c ∈ cs, c.Fits) ∧
      ∃ r, Reachable (traceRaceSystem calls) r ∧ (∀ t ∈ r.threads, t = ⟨[], .call⟩) ∧
        (∃ q₁ ∈ reservations 0 r.sizes, ∃ q₂ ∈ reservations 0 r.sizes, q₁ ≠ q₂ ∧
          q₁.start ≤ q₂.start ∧ q₂.start < q₁.start + maxTrace ∧
          ∃ x < q₁.size, ∃ y < q₂.size, (q₁.start + x) % maxTrace = (q₂.start + y) % maxTrace) ∧
        ∃ q ∈ reservations 0 r.sizes, q.p < q.start ∧ r.buf.traceLog (q.p % maxTrace) ≠ 0 := by
  obtain ⟨r, hr, hlog, hth, hsz⟩ := turn_run
  obtain ⟨h₁, h₂, h₃⟩ := turn_reservations
  rw [← hsz] at h₁ h₂ h₃
  refine ⟨turnThreads, turnThreads_fit, r, hr, by simp [hth],
    ⟨_, h₁, _, h₂, by decide, by decide, by decide, 0, by decide, 4056, by decide, by decide⟩,
    _, h₃, by decide, ?_⟩
  -- the gap's `tp` is byte `8` of the held record
  rw [hlog, show (maxTrace + 4064) % maxTrace = 4056 + 8 by decide, write_apply_add (by decide)]
  decide

end Osv.Core
