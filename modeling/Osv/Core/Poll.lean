import Mathlib.Logic.Function.Basic
import Osv.Vfs.Fcntl

/-!
# `poll`: scanning, the request links, and the masks it scans with

`poll(_pfd, _nfds, _timeout)` (`core/poll.cc`) copies the caller's `pollfd` array into a
vector of `poll_file`s, each holding a reference from `fileref_from_fd` (null for a descriptor
that is not open), and hands it to `do_poll`.  `do_poll` scans the entries with `poll_scan`
and returns at once when one is ready or the timeout is `0`.  Otherwise `poll_install` links a
`poll_link` for the request into the `f_poll_list` of each entry's file, in entry order, and
stops early when the file it just linked is already ready.  The caller then sleeps in `msleep`
unless `poll_install` marked the request awake, rescans unless the sleep timed out, and
`poll_uninstall` removes, for each entry, the first link of the request from its file's list.
The revents are copied back to the caller's array.

**The model.**  Files and requests are elements of types with decidable equality, and the
`f_poll_list` of every file is the list of requests its links point to, in list order.  What
`fo_poll` reports is a function of the file and the mask; the environment `PollEnv` gives it
at the first scan, during `poll_install` and at the rescan, and says whether `msleep` was
woken.  A call that never returns is `none`: `msleep` with no timeout and no wakeup, or
`assert(fp)` in `poll_install`, which `do_poll` reaches only after a scan that found a file
behind every entry (`quiet_of_pollScan`).
The mask `poll_link::_events` is read only by `poll_wake` and is left out.

**What holds** (`doPoll_restores_lists`, `poll_steady`).  Whatever the files report at each
point, `do_poll` leaves every `f_poll_list` as it found it: the early return of
`poll_install` links a prefix of the entries, and `poll_uninstall` unlinks once for each entry.
When the files' state does not change during the call, `poll` returns the count and revents
of one scan.

**What does not** (`poll_first_entry_mask`).  That scan is made with the wrong masks:
`pfd.emplace_back(fileref_from_fd(_pfd[i].fd), _pfd->events, _pfd->revents)` gives every
entry the `events` of the first one, so an entry waiting for `POLLOUT` behind one waiting for
`POLLIN` is scanned for `POLLIN`.
-/

namespace Osv.Core

/-- `POLLIN` -/
def POLLIN : UInt16 := 0x0001
/-- `POLLOUT` -/
def POLLOUT : UInt16 := 0x0004
/-- `POLLHUP` -/
def POLLHUP : UInt16 := 0x0010
/-- `POLLNVAL` -/
def POLLNVAL : UInt16 := 0x0020
/-- `FDMAX` of `osv/file.h`, the bound on `_nfds`. -/
def pollFdMax : ℕ := 0x4000

/-- A caller's `struct pollfd`. -/
structure PollFd where
  fd : ℤ
  events : UInt16
  revents : UInt16
  deriving DecidableEq, Repr

/-- A `struct poll_file`: the file reference, null when the descriptor is not open, and the
two masks. -/
structure PollFile (φ : Type*) where
  fp : Option φ
  events : UInt16
  revents : UInt16

variable {φ ρ : Type*}

/-! ## The scan -/

/-- The revents `poll_scan` leaves in one entry: `POLLNVAL` for a null file, otherwise
`fo_poll(fp, entry->events)` with `POLLOUT` cleared when `POLLHUP` is set. -/
def scanRevents (ready : φ → UInt16 → UInt16) (e : PollFile φ) : UInt16 :=
  match e.fp with
  | none => POLLNVAL
  | some f =>
      let r := ready f e.events
      if r &&& POLLHUP ≠ 0 then r &&& ~~~POLLOUT else r

/-- `poll_scan(_pfd)`: the entries with their revents, and the number of entries found ready,
counted before `POLLOUT` is cleared. -/
def pollScan (ready : φ → UInt16 → UInt16) : List (PollFile φ) → List (PollFile φ) × ℕ
  | [] => ([], 0)
  | e :: es =>
      let (es', n) := pollScan ready es
      match e.fp with
      | none => ({ e with revents := POLLNVAL } :: es', n + 1)
      | some f =>
          let r := ready f e.events
          ({ e with revents := if r &&& POLLHUP ≠ 0 then r &&& ~~~POLLOUT else r } :: es',
            if r ≠ 0 then n + 1 else n)

/-- Clearing `POLLOUT` keeps `POLLHUP`, so an entry with events keeps some. -/
theorem clear_pollout_ne_zero {r : UInt16} (h : r &&& POLLHUP ≠ 0) : r &&& ~~~POLLOUT ≠ 0 := by
  intro h0
  apply h
  have hkeep : (r &&& ~~~POLLOUT) &&& POLLHUP = r &&& POLLHUP := by
    rw [UInt16.and_assoc]
    rfl
  rw [← hkeep, h0]
  rfl

/-- An entry with a file has revents exactly when the file reports some. -/
theorem scanRevents_some_ne_zero (ready : φ → UInt16 → UInt16) {e : PollFile φ} {f : φ}
    (hf : e.fp = some f) : scanRevents ready e ≠ 0 ↔ ready f e.events ≠ 0 := by
  simp only [scanRevents, hf]
  by_cases hup : ready f e.events &&& POLLHUP = 0
  · simp only [hup, ne_eq, not_true_eq_false, if_false]
  · have hr : ready f e.events ≠ 0 := fun h0 => hup (by rw [h0]; rfl)
    simp only [ne_eq, hup, not_false_eq_true, if_true]
    exact ⟨fun _ => hr, fun _ => clear_pollout_ne_zero hup⟩

/-- An entry without revents has a file, which reports nothing. -/
theorem scanRevents_eq_zero {ready : φ → UInt16 → UInt16} {e : PollFile φ}
    (h : scanRevents ready e = 0) : ∃ f, e.fp = some f ∧ ready f e.events = 0 := by
  cases hfp : e.fp with
  | none => simp [scanRevents, hfp, POLLNVAL] at h
  | some f =>
      refine ⟨f, rfl, ?_⟩
      by_contra hr
      exact (scanRevents_some_ne_zero ready hfp).mpr hr h

/-- **`poll_scan`** sets each entry's revents to `scanRevents` and counts the entries that have
some. -/
theorem pollScan_eq (ready : φ → UInt16 → UInt16) (es : List (PollFile φ)) :
    pollScan ready es =
      (es.map fun e => { e with revents := scanRevents ready e },
        es.countP fun e => scanRevents ready e ≠ 0) := by
  induction es with
  | nil => rfl
  | cons e es ih =>
      rw [pollScan, ih, List.map_cons, List.countP_cons]
      obtain ⟨fp, ev, rv⟩ := e
      cases fp with
      | none => simp [scanRevents, POLLNVAL]
      | some f =>
          -- the count `poll_scan` takes before clearing `POLLOUT` is the one after
          have hiff := scanRevents_some_ne_zero ready (e := ⟨some f, ev, rv⟩) rfl
          refine Prod.ext rfl ?_
          by_cases hr : ready f ev = 0
          · simp [hr, hiff]
          · simp [hr, hiff]

/-- A scan that finds nothing leaves entries that each have a file reporting nothing. -/
theorem quiet_of_pollScan {ready : φ → UInt16 → UInt16} {es : List (PollFile φ)}
    (h : (pollScan ready es).2 = 0) :
    ∀ e ∈ (pollScan ready es).1, ∃ f, e.fp = some f ∧ ready f e.events = 0 := by
  rw [pollScan_eq, List.countP_eq_zero] at h
  rw [pollScan_eq]
  simp only [List.mem_map]
  rintro _ ⟨e, he, rfl⟩
  exact scanRevents_eq_zero (e := e) (by simpa using h e he)

/-- A rescan reads only the files and masks of the entries, not their old revents. -/
theorem pollScan_revents (ready : φ → UInt16 → UInt16) (es : List (PollFile φ)) :
    pollScan ready (pollScan ready es).1 = pollScan ready es := by
  simp only [pollScan_eq, List.map_map, List.countP_map]
  rfl

/-! ## The vector `poll` scans -/

/-- The vector `poll` builds: each entry's file, with the masks of the first `pollfd`. -/
def pollFiles (fileref : ℤ → Option φ) : List PollFd → List (PollFile φ)
  | [] => []
  | p :: ps => (p :: ps).map fun q => ⟨fileref q.fd, p.events, p.revents⟩

/-- The loop that copies each entry's revents back to the caller's array. -/
def copyRevents (pfds : List PollFd) (pfd : List (PollFile φ)) : List PollFd :=
  List.zipWith (fun p e => { p with revents := e.revents }) pfds pfd

/-! ### What `poll` should report

Each entry scanned with a mask of its own: `pollResult` with `mask = PollFd.events` is the
documented result, what the count and revents of `poll(2)` are. -/

/-- The revents of one caller's entry when its file is scanned with the mask `ev`. -/
def entryRevents (fileref : ℤ → Option φ) (ready : φ → UInt16 → UInt16) (ev : UInt16)
    (p : PollFd) : UInt16 :=
  scanRevents ready ⟨fileref p.fd, ev, 0⟩

/-- The count and array of a poll whose entry `p` is scanned with the mask `mask p`. -/
def pollResult (fileref : ℤ → Option φ) (ready : φ → UInt16 → UInt16) (mask : PollFd → UInt16)
    (pfds : List PollFd) : ℕ × List PollFd :=
  (pfds.countP fun p => entryRevents fileref ready (mask p) p ≠ 0,
    pfds.map fun p => { p with revents := entryRevents fileref ready (mask p) p })

/-- The documented result: each entry with its own `events`. -/
def pollSpec (fileref : ℤ → Option φ) (ready : φ → UInt16 → UInt16) (pfds : List PollFd) :
    ℕ × List PollFd :=
  pollResult fileref ready PollFd.events pfds

section Vector

variable (fileref : ℤ → Option φ) (ready : φ → UInt16 → UInt16)

/-- The scan of `poll`'s vector is `pollResult` with every entry given the first entry's mask. -/
theorem pollScan_pollFiles (p : PollFd) (ps : List PollFd) :
    pollScan ready (pollFiles fileref (p :: ps)) =
      ((pollFiles fileref (p :: ps)).map fun e => { e with revents := scanRevents ready e },
        (pollResult fileref ready (fun _ => p.events) (p :: ps)).1) := by
  rw [pollScan_eq]
  simp only [pollFiles, pollResult, entryRevents, List.countP_map]
  rfl

theorem copyRevents_pollFiles (p : PollFd) (ps : List PollFd) :
    copyRevents (p :: ps)
        ((pollFiles fileref (p :: ps)).map fun e => { e with revents := scanRevents ready e }) =
      (pollResult fileref ready (fun _ => p.events) (p :: ps)).2 := by
  simp only [copyRevents, pollFiles, pollResult, entryRevents, List.map_map]
  rw [List.zipWith_map_right, List.zipWith_self]
  rfl

end Vector

/-- The caller's array poll returns keeps the fds of the entries, in order: the copy back is a
loop over both arrays at once. -/
theorem copyRevents_fd (pfds : List PollFd) (pfd : List (PollFile φ)) :
    (copyRevents pfds pfd).map PollFd.fd <+: pfds.map PollFd.fd := by
  induction pfds generalizing pfd with
  | nil => exact List.nil_prefix
  | cons p ps ih =>
      cases pfd with
      | nil => exact List.nil_prefix
      | cons e es =>
          rw [copyRevents, List.zipWith_cons_cons, List.map_cons, List.map_cons]
          exact List.cons_prefix_cons.mpr ⟨rfl, ih es⟩

/-! ## Installing and removing the request's links -/

variable [DecidableEq φ]

/-- `poll_install(p)`: the lists after the links of the request `req`, and whether the request
was marked awake by the early return.  `none` is `assert(fp)` failing. -/
def pollInstall (req : ρ) (ready : φ → UInt16 → UInt16) :
    List (PollFile φ) → (φ → List ρ) → Option ((φ → List ρ) × Bool)
  | [], lists => some (lists, false)
  | e :: es, lists =>
      match e.fp with
      | none => none
      | some f =>
          let lists := Function.update lists f (lists f ++ [req])
          -- the file may have become ready just before the link went in
          if ready f e.events ≠ 0 then some (lists, true) else pollInstall req ready es lists

theorem pollInstall_nil (req : ρ) (ready : φ → UInt16 → UInt16) (lists : φ → List ρ) :
    pollInstall req ready [] lists = some (lists, false) := rfl

theorem pollInstall_cons (req : ρ) (ready : φ → UInt16 → UInt16) (e : PollFile φ)
    (es : List (PollFile φ)) (lists : φ → List ρ) :
    pollInstall req ready (e :: es) lists =
      match e.fp with
      | none => none
      | some f =>
          let lists := Function.update lists f (lists f ++ [req])
          if ready f e.events ≠ 0 then some (lists, true) else pollInstall req ready es lists := rfl

/-- The number of entries of `es` on the file `f`: the links `poll_install` makes there when it
goes through them all. -/
def linksOn (es : List (PollFile φ)) (f : φ) : ℕ := (es.map PollFile.fp).count (some f)

theorem linksOn_cons (e : PollFile φ) (es : List (PollFile φ)) (f : φ) :
    linksOn (e :: es) f = linksOn es f + if e.fp = some f then 1 else 0 := by
  simp only [linksOn, List.map_cons, List.count_cons, beq_iff_eq]

theorem linksOn_take_le (es : List (PollFile φ)) (k : ℕ) (f : φ) :
    linksOn (es.take k) f ≤ linksOn es f :=
  ((List.take_sublist k es).map PollFile.fp).count_le (some f)

/-- **`poll_install` links a prefix of the entries**: each file's list gains one link of the
request at its tail for each entry of the prefix on that file. -/
theorem pollInstall_links {req : ρ} {ready : φ → UInt16 → UInt16} :
    ∀ {es : List (PollFile φ)} {lists lists' : φ → List ρ} {awake : Bool},
      pollInstall req ready es lists = some (lists', awake) →
      ∃ k, lists' = fun f => lists f ++ List.replicate (linksOn (es.take k) f) req
  | [], lists, lists', awake, h => by
      simp only [pollInstall_nil, Option.some.injEq, Prod.mk.injEq] at h
      exact ⟨0, by simp [linksOn, ← h.1]⟩
  | e :: es, lists, lists', awake, h => by
      cases hfp : e.fp with
      | none => simp [pollInstall_cons, hfp] at h
      | some g =>
          -- the link on `g` counts for the first entry, whether the loop stops there or not
          have hlink : ∀ n f, Function.update lists g (lists g ++ [req]) f ++
              List.replicate n req =
              lists f ++ List.replicate (n + if e.fp = some f then 1 else 0) req := by
            intro n f
            by_cases hf : f = g
            · subst hf
              simp [hfp, List.replicate_succ]
            · simp [Function.update_of_ne hf, hfp, Ne.symm hf]
          simp only [pollInstall_cons, hfp] at h
          split_ifs at h with hr
          · simp only [Option.some.injEq, Prod.mk.injEq] at h
            refine ⟨1, funext fun f => ?_⟩
            have h0 : linksOn ([] : List (PollFile φ)) f = 0 := rfl
            rw [← h.1, List.take_succ_cons, List.take_zero, linksOn_cons, h0, ← hlink 0 f,
              List.replicate_zero, List.append_nil]
          · obtain ⟨k, hk⟩ := pollInstall_links h
            refine ⟨k + 1, ?_⟩
            rw [hk]
            funext f
            rw [List.take_succ_cons, linksOn_cons, hlink]

/-- A `poll_install` whose files all report nothing goes through every entry, its `assert`
holding, and leaves the request asleep. -/
theorem pollInstall_of_quiet (req : ρ) (ready : φ → UInt16 → UInt16) :
    ∀ {es : List (PollFile φ)} (lists : φ → List ρ),
      (∀ e ∈ es, ∃ f, e.fp = some f ∧ ready f e.events = 0) →
      ∃ lists', pollInstall req ready es lists = some (lists', false)
  | [], lists, _ => ⟨_, rfl⟩
  | e :: es, lists, hq => by
      obtain ⟨f, hf, hr⟩ := hq e List.mem_cons_self
      simp only [pollInstall_cons, hf, hr, ne_eq, not_true_eq_false, if_false]
      exact pollInstall_of_quiet req ready _ fun e' he' => hq e' (List.mem_cons_of_mem e he')

variable [DecidableEq ρ]

/-- `poll_uninstall(p)`: for each entry with a file, the first link of `req` in its list goes. -/
def pollUninstall (req : ρ) : List (PollFile φ) → (φ → List ρ) → φ → List ρ
  | [], lists => lists
  | e :: es, lists =>
      match e.fp with
      | none => pollUninstall req es lists
      | some f => pollUninstall req es (Function.update lists f ((lists f).erase req))

/-- Unlinking from a list that ends in `n` links of a request its other links do not point to
removes one of them. -/
theorem erase_append_replicate {l : List ρ} {req : ρ} (hl : req ∉ l) (n : ℕ) :
    (l ++ List.replicate n req).erase req = l ++ List.replicate (n - 1) req := by
  rw [List.erase_append_right _ hl]
  cases n with
  | zero => rfl
  | succ n => simp [List.replicate_succ, List.erase_cons_head]

/-- **`poll_uninstall` removes one link per entry**: from lists made of links of other requests
followed by links of `req`, each file loses as many of the latter as it has entries. -/
theorem pollUninstall_links {req : ρ} {base : φ → List ρ} (hbase : ∀ f, req ∉ base f) :
    ∀ (es : List (PollFile φ)) (c : φ → ℕ),
      pollUninstall req es (fun f => base f ++ List.replicate (c f) req) =
        fun f => base f ++ List.replicate (c f - linksOn es f) req
  | [], c => by simp [pollUninstall, linksOn]
  | e :: es, c => by
      cases hfp : e.fp with
      | none =>
          simp only [pollUninstall, hfp]
          rw [pollUninstall_links hbase es c]
          funext f
          simp [linksOn_cons, hfp]
      | some g =>
          simp only [pollUninstall, hfp]
          -- the unlinking on `g` is a decrement of `c g`
          have hstep : Function.update (fun f => base f ++ List.replicate (c f) req) g
              ((base g ++ List.replicate (c g) req).erase req) =
              fun f => base f ++ List.replicate (Function.update c g (c g - 1) f) req := by
            funext f
            by_cases hf : f = g
            · subst hf
              simp [erase_append_replicate (hbase f)]
            · simp [Function.update_of_ne hf]
          rw [hstep, pollUninstall_links hbase es]
          funext f
          by_cases hf : f = g
          · subst hf
            have hl : linksOn (e :: es) f = linksOn es f + 1 := by simp [linksOn_cons, hfp]
            rw [Function.update_self, hl, Nat.sub_sub, Nat.add_comm 1]
          · simp [Function.update_of_ne hf, linksOn_cons, hfp, Ne.symm hf]

/-- **Unlinking after linking**: `poll_uninstall` over the entries that `poll_install` went
through, or through a prefix of, gives back the lists from before, for a request with no links
yet. -/
theorem pollUninstall_pollInstall {req : ρ} {ready : φ → UInt16 → UInt16} {es : List (PollFile φ)}
    {lists lists' : φ → List ρ} {awake : Bool} (hfresh : ∀ f, req ∉ lists f)
    (h : pollInstall req ready es lists = some (lists', awake)) :
    pollUninstall req es lists' = lists := by
  obtain ⟨k, rfl⟩ := pollInstall_links h
  rw [pollUninstall_links hfresh]
  funext f
  rw [Nat.sub_eq_zero_of_le (linksOn_take_le es k f), List.replicate_zero, List.append_nil]

/-! ## `do_poll` and `poll` -/

/-- What the files report at each of `do_poll`'s three looks, and whether `msleep` was woken
before its timeout. -/
structure PollEnv (φ : Type*) where
  scan : φ → UInt16 → UInt16
  install : φ → UInt16 → UInt16
  rescan : φ → UInt16 → UInt16
  woken : Bool

/-- An environment whose files report the same at every look. -/
def PollEnv.steady (ready : φ → UInt16 → UInt16) (woken : Bool) : PollEnv φ :=
  ⟨ready, ready, ready, woken⟩

/-- `do_poll(pfd, _timeout)` for the request `req`: the entries, the number of events and the
poll lists; `none` when the call does not return. -/
def doPoll (env : PollEnv φ) (req : ρ) (lists : φ → List ρ) (pfd : List (PollFile φ))
    (timeout : ℤ) : Option (List (PollFile φ) × ℕ × (φ → List ρ)) :=
  let scan := pollScan env.scan pfd
  if scan.2 ≠ 0 then some (scan.1, scan.2, lists)
  else if timeout = 0 then some (scan.1, 0, lists)
  else
    (pollInstall req env.install scan.1 lists).bind fun (lists, awake) =>
      -- `msleep` is skipped when the request is already awake; a timeout below `0` becomes
      -- `0`, which sleeps until a wakeup
      if awake || env.woken then
        let rescan := pollScan env.rescan scan.1
        some (rescan.1, rescan.2, pollUninstall req scan.1 lists)
      else if timeout < 0 then none
      else some (scan.1, 0, pollUninstall req scan.1 lists)

/-- `poll(_pfd, _nfds, _timeout)`, with `fileref_from_fd` as `fileref`: the return value, or
the errno of `-1`, and the caller's array; and the poll lists after. -/
def poll (fileref : ℤ → Option φ) (env : PollEnv φ) (req : ρ) (lists : φ → List ρ)
    (pfds : List PollFd) (timeout : ℤ) : Option (Except ℕ (ℕ × List PollFd) × (φ → List ρ)) :=
  if pollFdMax < pfds.length then some (.error Osv.Vfs.EINVAL, lists)
  else
    (doPoll env req lists (pollFiles fileref pfds) timeout).map fun (pfd, n, lists) =>
      (.ok (n, copyRevents pfds pfd), lists)

/-- **`do_poll` leaves the poll lists as it found them**, on its early, timeout and wakeup
paths alike and whatever the files report, for a request with no links yet. -/
theorem doPoll_restores_lists {env : PollEnv φ} {req : ρ} {lists : φ → List ρ}
    {pfd : List (PollFile φ)} {timeout : ℤ} (hfresh : ∀ f, req ∉ lists f)
    {r : List (PollFile φ) × ℕ × (φ → List ρ)} (h : doPoll env req lists pfd timeout = some r) :
    r.2.2 = lists := by
  simp only [doPoll] at h
  by_cases hn : (pollScan env.scan pfd).2 ≠ 0
  · rw [if_pos hn] at h
    rw [← Option.some.inj h]
  rw [if_neg hn] at h
  by_cases ht : timeout = 0
  · rw [if_pos ht] at h
    rw [← Option.some.inj h]
  rw [if_neg ht] at h
  obtain ⟨⟨lists', awake⟩, hinst, hr⟩ := Option.bind_eq_some_iff.mp h
  have hback := pollUninstall_pollInstall hfresh hinst
  dsimp only at hr
  by_cases hw : (awake || env.woken) = true
  · rw [if_pos hw] at hr
    rw [← Option.some.inj hr]
    exact hback
  rw [if_neg hw] at hr
  by_cases hneg : timeout < 0
  · rw [if_pos hneg] at hr
    cases hr
  rw [if_neg hneg] at hr
  rw [← Option.some.inj hr]
  exact hback

/-- A first scan that finds events is returned at once, with the lists untouched. -/
theorem doPoll_of_ready {env : PollEnv φ} (req : ρ) (lists : φ → List ρ) {pfd : List (PollFile φ)}
    (timeout : ℤ) (h : (pollScan env.scan pfd).2 ≠ 0) :
    doPoll env req lists pfd timeout =
      some ((pollScan env.scan pfd).1, (pollScan env.scan pfd).2, lists) := by
  simp only [doPoll, if_pos h]

/-- **`do_poll` over files that do not change** returns the first scan, unless it would wait
for ever. -/
theorem doPoll_steady (ready : φ → UInt16 → UInt16) (woken : Bool) (req : ρ)
    (lists : φ → List ρ) (pfd : List (PollFile φ)) {timeout : ℤ}
    (hret : 0 ≤ timeout ∨ woken = true) :
    ∃ L, doPoll (.steady ready woken) req lists pfd timeout =
      some ((pollScan ready pfd).1, (pollScan ready pfd).2, L) := by
  simp only [doPoll, PollEnv.steady]
  by_cases hn : (pollScan ready pfd).2 = 0
  · -- nothing is ready: the install goes through every entry and a rescan sees the same
    obtain ⟨lists', hinst⟩ := pollInstall_of_quiet req ready lists (quiet_of_pollScan hn)
    have hre := pollScan_revents ready pfd
    by_cases ht : timeout = 0
    · exact ⟨lists, by simp [hn, ht]⟩
    · cases woken with
      | true => exact ⟨pollUninstall req (pollScan ready pfd).1 lists', by simp [hn, ht, hinst, hre]⟩
      | false =>
          have hpos : ¬ timeout < 0 := by simpa using hret
          exact ⟨pollUninstall req (pollScan ready pfd).1 lists', by simp [hn, ht, hinst, hpos]⟩
  · exact ⟨lists, by simp [hn]⟩

/-- **`poll` over files that do not change during the call** returns the count and revents of
a scan of every entry with the first entry's mask, and leaves the poll lists as they were.  It
returns unless it would wait for ever. -/
theorem poll_steady (fileref : ℤ → Option φ) (ready : φ → UInt16 → UInt16) (woken : Bool)
    {req : ρ} {lists : φ → List ρ} (hfresh : ∀ f, req ∉ lists f) (p : PollFd) (ps : List PollFd) {timeout : ℤ} (hlen : ps.length < pollFdMax)
    (hret : 0 ≤ timeout ∨ woken = true) :
    poll fileref (.steady ready woken) req lists (p :: ps) timeout =
      some (.ok (pollResult fileref ready (fun _ => p.events) (p :: ps)), lists) := by
  have hfit : ¬ pollFdMax < (p :: ps).length := by simp only [List.length_cons]; omega
  obtain ⟨L, hdo⟩ := doPoll_steady ready woken req lists (pollFiles fileref (p :: ps)) hret
  have hL : L = lists := doPoll_restores_lists hfresh hdo
  rw [poll, if_neg hfit, hdo, hL, Option.map_some, pollScan_pollFiles]
  dsimp only
  rw [copyRevents_pollFiles]

theorem poll_ok_fd {fileref : ℤ → Option φ} {env : PollEnv φ} {req : ρ} {lists lists' : φ → List ρ}
    {pfds pfds' : List PollFd} {timeout : ℤ} {k : ℕ}
    (h : poll fileref env req lists pfds timeout = some (.ok (k, pfds'), lists')) :
    pfds'.map PollFd.fd <+: pfds.map PollFd.fd := by
  unfold poll at h
  split_ifs at h with hlen
  · cases h
  · obtain ⟨⟨pfd, n, L⟩, -, hr⟩ := Option.map_eq_some_iff.mp h
    cases hr
    exact copyRevents_fd pfds pfd

/-! ## Two entries with different masks -/

/-- Descriptor `0` is open on the file `0` and descriptor `1` on the file `1`. -/
def twoFds : ℤ → Option ℕ := fun fd => if fd = 0 then some 0 else if fd = 1 then some 1 else none

/-- The file `0` is readable and the file `1` writable. -/
def twoFiles : ℕ → UInt16 → UInt16 := fun f ev => ev &&& if f = 0 then POLLIN else POLLOUT

/-- A `poll` for reading on the first descriptor and for writing on the second. -/
def twoEntries : List PollFd := [⟨0, POLLIN, 0⟩, ⟨1, POLLOUT, 0⟩]

theorem poll_first_entry_mask (woken : Bool) (req : ℕ) (lists : ℕ → List ℕ) (timeout : ℤ) :
    poll twoFds (.steady twoFiles woken) req lists twoEntries timeout =
      some (.ok (1, [⟨0, POLLIN, POLLIN⟩, ⟨1, POLLOUT, 0⟩]), lists) ∧
    pollSpec twoFds twoFiles twoEntries = (2, [⟨0, POLLIN, POLLIN⟩, ⟨1, POLLOUT, POLLOUT⟩]) := by
  -- the scan with the first entry's mask `POLLIN` finds the first file ready, the second not
  have hscan : (pollScan twoFiles (pollFiles twoFds twoEntries)).2 = 1 := rfl
  have hfit : ¬ pollFdMax < twoEntries.length := by decide
  refine ⟨?_, rfl⟩
  rw [poll, if_neg hfit, @doPoll_of_ready _ _ _ _ (.steady twoFiles woken) req lists _ timeout
    (by rw [PollEnv.steady, hscan]; decide), Option.map_some]
  simp only [PollEnv.steady]
  rfl

end Osv.Core
