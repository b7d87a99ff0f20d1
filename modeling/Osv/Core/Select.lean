import Mathlib.Data.Finset.Card
import Osv.Core.Poll
import Osv.Vfs.Descrip

/-!
# `select` on top of `poll`

`select(nfds, readfds, writefds, exceptfds, timeout)` (`core/select.c`) rejects `nfds` below
`0` or above `FD_SETSIZE + 1` with `EINVAL`, and with `nfds = 0` only sleeps.  Otherwise it
builds a `pollfd` array with one entry for each fd below `nfds` that is in `readfds` or in
`writefds`, asking for `POLLIN` and for `POLLOUT` as the fd is in each, and calls `poll`.  It
then clears each set that is not null with `FD_ZERO` and goes through the entries with
revents: an entry with `POLLNVAL` ends the loop with `EBADF`; any other puts its fd into each
set that is not null whose mask (`POLLIN | POLLHUP | POLLERR`, `POLLOUT | POLLRDHUP | POLLERR`,
`POLLPRI`) meets its revents, and counts once if it went into one.

**The model.**  An `fd_set` is the set of fds below `FD_SETSIZE` whose bit is set (`FdSet`).
`FD_ISSET` of an fd from `FD_SETSIZE` on reads past the set, and the request loop is `none`
there.  `poll` is `Osv.Core.poll`, with whatever its environment reports; `malloc` succeeds,
and `nanosleep` on the path of `nfds = 0` only sleeps.

**What holds** (`select_ok`).  On a normal return with `nfds` from `1` to `FD_SETSIZE` the
sets that were null stay null, every fd in an output set is below `nfds` and in `readfds` or
in `writefds`, and the return value is the number of fds in the output sets.

**What does not** (`select_diverges_from_posix`).  `nfds = FD_SETSIZE + 1` is not rejected,
and the request loop reads bit `FD_SETSIZE` of a set.  The masks are read against the merged
entry: a hang-up on an fd asked for writing alone goes into the read set.  No fd is asked for
`POLLPRI`, so an fd in `exceptfds` alone is never reported.  An fd in two output sets counts
once.
-/

namespace Osv.Core

/-- `FD_SETSIZE` -/
def FD_SETSIZE : ℕ := 1024
/-- `POLLPRI` -/
def POLLPRI : UInt16 := 0x0002
/-- `POLLERR` -/
def POLLERR : UInt16 := 0x0008
/-- `POLLRDHUP` -/
def POLLRDHUP : UInt16 := 0x2000

/-- An `fd_set`: the fds whose bit is set, all below `FD_SETSIZE`. -/
structure FdSet where
  fds : Finset ℕ
  lt : ∀ d ∈ fds, d < FD_SETSIZE

namespace FdSet

@[ext] theorem ext {s t : FdSet} (h : s.fds = t.fds) : s = t := by
  cases s
  cases t
  cases h
  rfl

instance : DecidableEq FdSet := fun s t => decidable_of_iff (s.fds = t.fds) ⟨ext, congrArg fds⟩

/-- `FD_ZERO(s)`. -/
def zero : FdSet := ⟨∅, fun _ h => absurd h (Finset.notMem_empty _)⟩

/-- `FD_SET(d, s)`.  select sets only fds of its request, which are below `FD_SETSIZE`
(`requestLoop_eq`). -/
def set (s : FdSet) (d : ℕ) : FdSet :=
  if h : d < FD_SETSIZE then
    ⟨insert d s.fds, fun x hx => (Finset.mem_insert.mp hx).elim (fun e => e ▸ h) (s.lt x)⟩
  else s

end FdSet

/-- `if (set) FD_ISSET(d, set)`: `false` for a null set, `none` for a bit past the set. -/
def isSetIn : Option FdSet → ℕ → Option Bool
  | none, _ => some false
  | some s, d => if d < FD_SETSIZE then some (decide (d ∈ s.fds)) else none

/-- Whether `d` is in a set that may be null. -/
def memIn : Option FdSet → ℕ → Bool
  | none, _ => false
  | some s, d => decide (d ∈ s.fds)

/-- A `struct timeval`. -/
structure Timeval where
  sec : ℤ
  usec : ℤ
  deriving DecidableEq, Repr

/-- `timeout_ms`: `-1` for a null timeout. -/
def timeoutMs : Option Timeval → ℤ
  | none => -1
  | some t => t.sec * 1000 + t.usec.tdiv 1000

/-! ## The request -/

/-- One iteration of the loop that prepares the poll request: the entry of fd `i`, if it asks
for anything. -/
def requestEntry (readfds writefds : Option FdSet) (i : ℕ) : Option (Option PollFd) := do
  let r ← isSetIn readfds i
  let w ← isSetIn writefds i
  let events : UInt16 := (if r then POLLIN else 0) ||| (if w then POLLOUT else 0)
  pure (if events ≠ 0 then some ⟨i, events, 0⟩ else none)

/-- The loop that prepares the poll request, over the fds `is`. -/
def requestLoop (readfds writefds : Option FdSet) : List ℕ → Option (List PollFd)
  | [] => some []
  | i :: is => do
      let e ← requestEntry readfds writefds i
      let rest ← requestLoop readfds writefds is
      pure (e.toList ++ rest)

theorem requestLoop_cons (readfds writefds : Option FdSet) (i : ℕ) (is : List ℕ) :
    requestLoop readfds writefds (i :: is) =
      (do
        let e ← requestEntry readfds writefds i
        let rest ← requestLoop readfds writefds is
        pure (e.toList ++ rest)) := rfl

/-! ## The result -/

/-- The three sets select writes. -/
structure FdSets where
  r : Option FdSet
  w : Option FdSet
  e : Option FdSet
  deriving DecidableEq

/-- `POLLIN | POLLHUP | POLLERR` -/
def readMask : UInt16 := POLLIN ||| POLLHUP ||| POLLERR
/-- `POLLOUT | POLLRDHUP | POLLERR` -/
def writeMask : UInt16 := POLLOUT ||| POLLRDHUP ||| POLLERR

/-- `if (set) if (revents & mask) { FD_SET(fd, set); event = true; }`. -/
def markSet (set : Option FdSet) (mask : UInt16) (p : PollFd) : Option FdSet × Bool :=
  match set with
  | none => (none, false)
  | some s => if p.revents &&& mask ≠ 0 then (some (s.set p.fd.toNat), true) else (some s, false)

/-- The body of the result loop for an entry with revents and without `POLLNVAL`: the sets, and
whether the entry went into one. -/
def markEntry (sets : FdSets) (p : PollFd) : FdSets × Bool :=
  let r := markSet sets.r readMask p
  let w := markSet sets.w writeMask p
  let e := markSet sets.e POLLPRI p
  (⟨r.1, w.1, e.1⟩, r.2 || w.2 || e.2)

/-- The loop over the entries poll returned, from the count `num_fds`: the count, or `EBADF` at
the first entry with `POLLNVAL`, and the sets. -/
def resultLoop : List PollFd → FdSets → ℕ → Except ℕ ℕ × FdSets
  | [], sets, n => (.ok n, sets)
  | p :: ps, sets, n =>
      if p.revents = 0 then resultLoop ps sets n
      else if p.revents &&& POLLNVAL ≠ 0 then (.error Osv.Vfs.EBADF, sets)
      else resultLoop ps (markEntry sets p).1 (if (markEntry sets p).2 then n + 1 else n)

/-- `FD_ZERO` of each set that is not null. -/
def FdSets.zero (sets : FdSets) : FdSets :=
  ⟨sets.r.map fun _ => .zero, sets.w.map fun _ => .zero, sets.e.map fun _ => .zero⟩

/-- The fds in the three sets. -/
def FdSets.fds (sets : FdSets) : Finset ℕ :=
  (sets.r.elim ∅ FdSet.fds ∪ sets.w.elim ∅ FdSet.fds) ∪ sets.e.elim ∅ FdSet.fds

/-- Which of the three sets are not null. -/
def FdSets.shape (sets : FdSets) : Bool × Bool × Bool := (sets.r.isSome, sets.w.isSome, sets.e.isSome)

variable {φ ρ : Type*} [DecidableEq φ] [DecidableEq ρ]

/-- `select(nfds, readfds, writefds, exceptfds, timeout)`, with `poll` for the request `req`:
the return value, or the errno of `-1`, and the sets; and the poll lists after.  `none` when
the call does not return, or reads past an `fd_set`. -/
def select (fileref : ℤ → Option φ) (env : PollEnv φ) (req : ρ) (lists : φ → List ρ)
    (nfds : ℤ) (sets : FdSets) (timeout : Option Timeval) :
    Option ((Except ℕ ℕ × FdSets) × (φ → List ρ)) :=
  if nfds < 0 ∨ (FD_SETSIZE : ℤ) + 1 < nfds then some ((.error Osv.Vfs.EINVAL, sets), lists)
  else if nfds = 0 then
    -- some programs call select with `nfds = 0` to sleep
    if timeout.isNone then some ((.error Osv.Vfs.EINVAL, sets), lists) else some ((.ok 0, sets), lists)
  else
    (requestLoop sets.r sets.w (List.range nfds.toNat)).bind fun pfds =>
      (poll fileref env req lists pfds (timeoutMs timeout)).map fun r =>
        match r.1 with
        | .error e => ((.error e, sets), r.2)
        | .ok (_, pfds) => (resultLoop pfds sets.zero 0, r.2)

/-! ## The request loop -/

/-- The events select asks for on fd `i`. -/
def wantedEvents (readfds writefds : Option FdSet) (i : ℕ) : UInt16 :=
  (if memIn readfds i then POLLIN else 0) ||| (if memIn writefds i then POLLOUT else 0)

theorem isSetIn_of_lt (set : Option FdSet) {i : ℕ} (hi : i < FD_SETSIZE) :
    isSetIn set i = some (memIn set i) := by
  cases set <;> simp [isSetIn, memIn, hi]

/-- Below `FD_SETSIZE` an fd gets an entry when it is in one of the two sets. -/
theorem requestEntry_of_lt (readfds writefds : Option FdSet) {i : ℕ} (hi : i < FD_SETSIZE) :
    requestEntry readfds writefds i =
      some (if memIn readfds i || memIn writefds i then some ⟨i, wantedEvents readfds writefds i, 0⟩
        else none) := by
  simp only [requestEntry, isSetIn_of_lt _ hi, Option.pure_def, Option.bind_eq_bind,
    Option.bind_some, wantedEvents]
  cases memIn readfds i <;> cases memIn writefds i <;> rfl

/-- From `FD_SETSIZE` on the loop reads past a set that is not null. -/
theorem requestEntry_of_le {readfds writefds : Option FdSet} {i : ℕ} (hi : FD_SETSIZE ≤ i)
    (hset : readfds.isSome ∨ writefds.isSome) : requestEntry readfds writefds i = none := by
  rcases hset with hr | hw
  · obtain ⟨s, rfl⟩ := Option.isSome_iff_exists.mp hr
    simp [requestEntry, isSetIn, Nat.not_lt.mpr hi]
  · obtain ⟨s, rfl⟩ := Option.isSome_iff_exists.mp hw
    cases readfds <;> simp [requestEntry, isSetIn, Nat.not_lt.mpr hi]

/-- **The request**: for fds below `FD_SETSIZE`, one entry for each fd in one of the two sets,
in order, with the events of the sets it is in. -/
theorem requestLoop_eq (readfds writefds : Option FdSet) :
    ∀ {is : List ℕ}, (∀ i ∈ is, i < FD_SETSIZE) →
      requestLoop readfds writefds is =
        some ((is.filter fun i => memIn readfds i || memIn writefds i).map
          fun i => ⟨i, wantedEvents readfds writefds i, 0⟩)
  | [], _ => rfl
  | i :: is, h => by
      have ih := requestLoop_eq readfds writefds fun j hj => h j (List.mem_cons_of_mem i hj)
      rw [requestLoop_cons, requestEntry_of_lt _ _ (h i List.mem_cons_self), ih, List.filter_cons]
      cases memIn readfds i || memIn writefds i <;> rfl

theorem requestLoop_of_le {readfds writefds : Option FdSet} (hset : readfds.isSome ∨ writefds.isSome) :
    ∀ {is : List ℕ}, (∃ i ∈ is, FD_SETSIZE ≤ i) → requestLoop readfds writefds is = none
  | [], ⟨_, hi, _⟩ => absurd hi List.not_mem_nil
  | i :: is, ⟨j, hj, hle⟩ => by
      by_cases hi : FD_SETSIZE ≤ i
      · simp [requestLoop_cons, requestEntry_of_le hi hset]
      · -- the entry of `i` is read, and the bit past the set comes later
        have hj' : j ∈ is := (List.mem_cons.mp hj).resolve_left fun e => hi (e ▸ hle)
        rw [requestLoop_cons, requestEntry_of_lt _ _ (Nat.lt_of_not_le hi),
          requestLoop_of_le hset ⟨j, hj', hle⟩]
        rfl

/-! ## The result loop -/

namespace FdSet

theorem fds_set (s : FdSet) {d : ℕ} (hd : d < FD_SETSIZE) : (s.set d).fds = insert d s.fds := by
  simp [set, hd]

end FdSet

/-- The fds of a set that may be null. -/
theorem elim_markSet (set : Option FdSet) (mask : UInt16) (p : PollFd)
    (hp : p.fd.toNat < FD_SETSIZE) :
    (markSet set mask p).1.elim ∅ FdSet.fds =
      if (markSet set mask p).2 then insert p.fd.toNat (set.elim ∅ FdSet.fds)
      else set.elim ∅ FdSet.fds := by
  cases set with
  | none => rfl
  | some s =>
      by_cases hm : p.revents &&& mask ≠ 0
      · simp [markSet, hm, FdSet.fds_set _ hp]
      · simp [markSet, hm]

theorem isSome_markSet (set : Option FdSet) (mask : UInt16) (p : PollFd) :
    (markSet set mask p).1.isSome = set.isSome := by
  cases set with
  | none => rfl
  | some s => by_cases hm : p.revents &&& mask ≠ 0 <;> simp [markSet, hm]

/-- An entry that went into a set adds its fd to the sets, and one that did not adds nothing. -/
theorem fds_markEntry (sets : FdSets) (p : PollFd) (hp : p.fd.toNat < FD_SETSIZE) :
    (markEntry sets p).1.fds =
      if (markEntry sets p).2 then insert p.fd.toNat sets.fds else sets.fds := by
  simp only [markEntry, FdSets.fds, elim_markSet _ _ _ hp]
  by_cases hr : (markSet sets.r readMask p).2 <;> by_cases hw : (markSet sets.w writeMask p).2 <;>
    by_cases he : (markSet sets.e POLLPRI p).2 <;>
    simp [hr, hw, he, Finset.insert_union, Finset.union_insert]

theorem shape_markEntry (sets : FdSets) (p : PollFd) : (markEntry sets p).1.shape = sets.shape := by
  simp only [markEntry, FdSets.shape, isSome_markSet]

/-- **The result loop** over entries with distinct fds below `FD_SETSIZE`, none of them in the
sets yet, from a count of the fds in the sets: the sets stay null or not, gain only fds of the
entries, and a count it returns is the number of fds in them. -/
theorem resultLoop_spec :
    ∀ (ps : List PollFd) (sets : FdSets) (n : ℕ), (∀ p ∈ ps, p.fd.toNat < FD_SETSIZE) →
      (ps.map fun p => p.fd.toNat).Nodup → (∀ p ∈ ps, p.fd.toNat ∉ sets.fds) → n = sets.fds.card →
      (resultLoop ps sets n).2.shape = sets.shape ∧
        (resultLoop ps sets n).2.fds ⊆ sets.fds ∪ (ps.map fun p => p.fd.toNat).toFinset ∧
        ∀ m, (resultLoop ps sets n).1 = .ok m → m = (resultLoop ps sets n).2.fds.card
  | [], sets, n, _, _, _, hn => ⟨rfl, Finset.subset_union_left, fun m h => by
      cases h
      exact hn⟩
  | p :: ps, sets, n, hlt, hnodup, hfresh, hn => by
      have hlt' : ∀ q ∈ ps, q.fd.toNat < FD_SETSIZE := fun q hq => hlt q (List.mem_cons_of_mem p hq)
      have hcons : (p.fd.toNat :: ps.map fun q => q.fd.toNat).Nodup := hnodup
      have hnodup' := (List.nodup_cons.mp hcons).2
      have hpnot : p.fd.toNat ∉ ps.map fun q => q.fd.toNat := (List.nodup_cons.mp hcons).1
      have hwider : sets.fds ∪ (ps.map fun q => q.fd.toNat).toFinset ⊆
          sets.fds ∪ ((p :: ps).map fun q => q.fd.toNat).toFinset :=
        Finset.union_subset_union (Finset.Subset.refl _) (by simp [Finset.subset_insert])
      by_cases h0 : p.revents = 0
      · obtain ⟨hs, hsub, hcount⟩ := resultLoop_spec ps sets n hlt' hnodup'
          (fun q hq => hfresh q (List.mem_cons_of_mem p hq)) hn
        rw [resultLoop, if_pos h0]
        exact ⟨hs, hsub.trans hwider, hcount⟩
      by_cases hnval : p.revents &&& POLLNVAL ≠ 0
      · rw [resultLoop, if_neg h0, if_pos hnval]
        exact ⟨rfl, Finset.subset_union_left, fun m h => by cases h⟩
      -- the entry goes into the sets, or not, and the loop goes on from there
      have hmark := fds_markEntry sets p (hlt p List.mem_cons_self)
      have hfresh' : ∀ q ∈ ps, q.fd.toNat ∉ (markEntry sets p).1.fds := by
        intro q hq hmem
        have hne : q.fd.toNat ≠ p.fd.toNat := fun e => hpnot (e ▸ List.mem_map_of_mem hq)
        rw [hmark] at hmem
        split_ifs at hmem
        · exact hfresh q (List.mem_cons_of_mem p hq) ((Finset.mem_insert.mp hmem).resolve_left hne)
        · exact hfresh q (List.mem_cons_of_mem p hq) hmem
      have hn' : (if (markEntry sets p).2 then n + 1 else n) = (markEntry sets p).1.fds.card := by
        rw [hmark]
        split_ifs
        · rw [Finset.card_insert_of_notMem (hfresh p List.mem_cons_self), hn]
        · exact hn
      obtain ⟨hs, hsub, hcount⟩ := resultLoop_spec ps _ _ hlt' hnodup' hfresh' hn'
      rw [resultLoop, if_neg h0, if_neg hnval]
      refine ⟨hs.trans (shape_markEntry sets p), fun d hd => ?_, hcount⟩
      have hd' := hsub hd
      rw [hmark] at hd'
      split_ifs at hd'
      · rcases Finset.mem_union.mp hd' with h | h
        · rcases Finset.mem_insert.mp h with rfl | h
          · exact Finset.mem_union_right _ (by simp)
          · exact Finset.mem_union_left _ h
        · exact hwider (Finset.mem_union_right _ h)
      · exact hwider hd'

/-! ## select -/

theorem fds_zero (sets : FdSets) : sets.zero.fds = ∅ := by
  rcases sets with ⟨_ | _, _ | _, _ | _⟩ <;> rfl

theorem shape_zero (sets : FdSets) : sets.zero.shape = sets.shape := by
  rcases sets with ⟨_ | _, _ | _, _ | _⟩ <;> rfl

/-- The fds of the entries poll hands back: fds below `nfds` in one of the two sets, each once. -/
theorem select_entries_fd {pfds : List PollFd} {readfds writefds : Option FdSet} {m : ℕ}
    (hpre : pfds.map PollFd.fd <+:
      (((List.range m).filter fun i => memIn readfds i || memIn writefds i).map
        fun i : ℕ => (⟨i, wantedEvents readfds writefds i, 0⟩ : PollFd)).map PollFd.fd) :
    (pfds.map fun p => p.fd.toNat) <+: (List.range m).filter fun i => memIn readfds i || memIn writefds i := by
  have h := hpre.map Int.toNat
  simpa [List.map_map, Function.comp_def] using h

variable {fileref : ℤ → Option φ} {env : PollEnv φ} {req : ρ} {lists : φ → List ρ}

/-- **What select returns.**  On a normal return with `nfds` from `1` to `FD_SETSIZE`, the
sets that were null stay null, every fd in the output sets is below `nfds` and was in
`readfds` or in `writefds`, and the return value is the number of fds in the output sets. -/
theorem select_ok {lists' : φ → List ρ} {nfds : ℤ} {sets out : FdSets} {timeout : Option Timeval}
    {n : ℕ} (hpos : 1 ≤ nfds) (hle : nfds ≤ FD_SETSIZE)
    (h : select fileref env req lists nfds sets timeout = some ((.ok n, out), lists')) :
    out.shape = sets.shape ∧
      (∀ d ∈ out.fds, d < nfds.toNat ∧ (memIn sets.r d || memIn sets.w d) = true) ∧
      n = out.fds.card := by
  have hreq := @requestLoop_eq sets.r sets.w (List.range nfds.toNat) fun i hi => by
    have := List.mem_range.mp hi
    omega
  rw [select, if_neg (by omega), if_neg (by omega), hreq, Option.bind_some] at h
  obtain ⟨⟨res, L⟩, hpoll, hr⟩ := Option.map_eq_some_iff.mp h
  cases res with
  | error e => cases hr
  | ok kp =>
      obtain ⟨k, pfds⟩ := kp
      have hloop : resultLoop pfds sets.zero 0 = (.ok n, out) := congrArg Prod.fst hr
      -- the entries poll hands back are a prefix of the request
      have hpre := select_entries_fd (poll_ok_fd hpoll)
      have hin : ∀ p ∈ pfds, p.fd.toNat < nfds.toNat ∧ (memIn sets.r p.fd.toNat || memIn sets.w p.fd.toNat) = true :=
        fun p hp => by
          have := List.mem_filter.mp (hpre.subset (List.mem_map_of_mem hp))
          exact ⟨List.mem_range.mp this.1, this.2⟩
      obtain ⟨hs, hsub, hcount⟩ := resultLoop_spec pfds sets.zero 0
        (fun p hp => by have := (hin p hp).1; omega)
        (hpre.sublist.nodup (List.nodup_range.filter _))
        (fun p _ => by simp [fds_zero]) (by simp [fds_zero])
      rw [hloop] at hs hsub hcount
      refine ⟨hs.trans (shape_zero sets), fun d hd => ?_, hcount n rfl⟩
      have hd' := hsub hd
      rw [fds_zero, Finset.empty_union, List.mem_toFinset] at hd'
      obtain ⟨p, hp, rfl⟩ := List.mem_map.mp hd'
      exact hin p hp

/-- `nfds = FD_SETSIZE + 1` passes the check, and the request loop reads bit `FD_SETSIZE` of a
set that is not null. -/
theorem select_past_fd_setsize (sets : FdSets) (timeout : Option Timeval)
    (hset : sets.r.isSome ∨ sets.w.isSome) :
    requestLoop sets.r sets.w (List.range (FD_SETSIZE + 1)) = none ∧
      select fileref env req lists ((FD_SETSIZE + 1 : ℕ) : ℤ) sets timeout = none := by
  have hnone : requestLoop sets.r sets.w (List.range (FD_SETSIZE + 1)) = none :=
    requestLoop_of_le hset ⟨FD_SETSIZE, List.mem_range.mpr (Nat.lt_succ_self _), le_rfl⟩
  refine ⟨hnone, ?_⟩
  rw [select, if_neg (by omega), if_neg (by omega), Int.toNat_natCast, hnone, Option.bind_none]

/-- With `nfds = 0` select sleeps and returns `0`, with the sets as they were. -/
theorem select_zero_nfds (sets : FdSets) (t : Timeval) :
    select fileref env req lists 0 sets (some t) = some ((.ok 0, sets), lists) := by
  rw [select, if_neg (by omega), if_pos rfl, if_neg (by simp)]

/-! ## Three descriptors POSIX would report otherwise -/

/-- Descriptor `0` is open on the file `0`. -/
def oneFd : ℤ → Option ℕ := fun fd => if fd = 0 then some 0 else none

/-- A file that has hung up: it reports `POLLHUP` whatever it is asked for. -/
def hungUp : ℕ → UInt16 → UInt16 := fun _ _ => POLLHUP

/-- A file with urgent data: `POLLPRI`, when it is asked for it. -/
def urgentData : ℕ → UInt16 → UInt16 := fun _ ev => ev &&& POLLPRI

/-- A file that is readable and writable. -/
def readyBoth : ℕ → UInt16 → UInt16 := fun _ ev => ev &&& (POLLIN ||| POLLOUT)

/-- The `fd_set` holding fd `0`. -/
def fdZeroSet : FdSet := ⟨{0}, fun d hd => by
  rw [Finset.mem_singleton.mp hd]
  decide⟩

/-- The poll lists, with no link yet. -/
def noLinks : ℕ → List ℕ := fun _ => []

/-- A timeout of `0`: poll returns at once. -/
def zeroTimeout : Option Timeval := some ⟨0, 0⟩

/-- **select is not POSIX select.**  It accepts `nfds = FD_SETSIZE + 1` and reads past a set;
with `nfds = 0` it returns the sets it was given.  A hang-up on fd `0`, asked for writing alone,
puts it into the read set.  Urgent data on fd `0`, asked for in `exceptfds` alone, is not
reported.  Fd `0`, readable and writable and asked for both, is counted once for two bits. -/
theorem select_diverges_from_posix {φ ρ : Type*} [DecidableEq φ] [DecidableEq ρ] :
    (∀ (fileref : ℤ → Option φ) (env : PollEnv φ) (req : ρ) (lists : φ → List ρ) (sets : FdSets)
        (timeout : Option Timeval), (sets.r.isSome ∨ sets.w.isSome) →
      requestLoop sets.r sets.w (List.range (FD_SETSIZE + 1)) = none ∧
        select fileref env req lists ((FD_SETSIZE + 1 : ℕ) : ℤ) sets timeout = none) ∧
    (∀ (fileref : ℤ → Option φ) (env : PollEnv φ) (req : ρ) (lists : φ → List ρ) (sets : FdSets)
        (t : Timeval), select fileref env req lists 0 sets (some t) = some ((.ok 0, sets), lists)) ∧
    select oneFd (.steady hungUp false) 0 noLinks 1 ⟨some .zero, some fdZeroSet, none⟩ zeroTimeout =
      some ((.ok 1, ⟨some fdZeroSet, some .zero, none⟩), noLinks) ∧
    select oneFd (.steady urgentData false) 0 noLinks 1 ⟨none, none, some fdZeroSet⟩ zeroTimeout =
      some ((.ok 0, ⟨none, none, some .zero⟩), noLinks) ∧
    select oneFd (.steady readyBoth false) 0 noLinks 1 ⟨some fdZeroSet, some fdZeroSet, none⟩
        zeroTimeout = some ((.ok 1, ⟨some fdZeroSet, some fdZeroSet, none⟩), noLinks) :=
  ⟨fun _ _ _ _ sets timeout hset => select_past_fd_setsize sets timeout hset,
    fun _ _ _ _ sets t => select_zero_nfds sets t, rfl, rfl, rfl⟩

end Osv.Core
