import Osv.Lib.Transition
import Osv.Vfs.Fcntl

/-!
# The descriptor table and file reference counts

`fs/vfs/kern_descrip.cc` keeps the table `gfdt` of `FDMAX` slots and, in each `struct file`,
the reference count `f_count`.  `fhold` and `fdrop` are an atomic increment and decrement;
the `fdrop` that takes the count from `1` to `0` runs `delete fp`, whose destructor
`file::~file` first sets `f_count = INT_MIN`.  `fget` takes a reference only on a positive
count.  `_fdalloc` takes a reference for the slot it fills, and gives it back when there is
none; `fdset` takes one for the slot and drops the one of the file it replaces; `fdclose`
drops the slot's.  The calls `dup`, `dup3` and `fcntl` (`fs/vfs/main.cc`) hold a reference from
`fget` while they work.

The model runs each call, under `gfdt_lock` or not, as one step, except for the two places
where a file is touched without a reference being held: the destructor run after an `fdrop`
reached `0`, a step of its own, and `poll_wake`, which does `fhold`, wakes the poll requests,
and `fdrop`, in two steps.  A call records the files whose count it took to `0`, and runs
their destructors afterwards.  `destroyed` counts the runs of `file::~file` and is ghost
state.  Descriptors and `fcntl`'s argument are natural numbers: negative values, which index
`gfdt` out of range in `fdclose` and in `_fdalloc`'s loop, are left out.

**What does not hold** (`descriptor_leak_and_double_destroy`).  A failing `F_DUPFD` leaves
`fcntl` through `goto out_errno`, past the `fdrop(fp)` that matches its `fget`: the file keeps
a reference that no slot or holder accounts for, and closing its last descriptor does not free
it.  And `poll_wake` on a file whose last reference is being dropped takes the count from `0`
back to `1` before the destructor writes `INT_MIN`; its own `fdrop` then runs the destructor a
second time.
-/

namespace Osv.Vfs

open Transition

variable {φ τ : Type*}

/-- `FDMAX` -/
def FDMAX : ℕ := 0x4000

def EBADF : ℕ := 9
def EMFILE : ℕ := 24

/-- `INT_MIN` -/
def INT_MIN : ℤ := -2147483648

/-- Where a thread is: idle, in `poll_wake` between its `fhold` and its `fdrop`, or about to run
`file::~file` on the files whose last reference it dropped. -/
inductive DescPc (φ : Type*) where
  | idle
  | polling (f : φ)
  | destroying (dying : List φ)
deriving DecidableEq

/-- The descriptor table, the files, and the threads. -/
structure Desc (φ τ : Type*) where
  gfdt : ℕ → Option φ
  count : φ → ℤ
  flags : φ → BitVec 32
  /-- Ghost: the runs of `file::~file` on each file. -/
  destroyed : φ → ℕ
  pc : τ → DescPc φ

/-- What a step shows: a call returning, with `errno` when it returns `-1`, or aborting. -/
inductive DescLabel (τ : Type*) where
  | returned (t : τ) (ret : ℤ) (errno : ℕ)
  | aborted (t : τ)
  | internal
deriving DecidableEq

/-- A step: a thread calls `dup`, `dup3`, `fcntl`, `close` or `poll_wake`, finishes
`poll_wake`, or runs a destructor. -/
inductive DescAction (φ τ : Type*) where
  | dup (t : τ) (oldfd : ℕ)
  | dup3 (t : τ) (oldfd newfd : ℕ) (flags : BitVec 32)
  | fcntl (t : τ) (fd cmd : ℕ) (arg : BitVec 32)
  | close (t : τ) (fd : ℕ)
  | pollWake (t : τ) (f : φ)
  | pollDone (t : τ)
  | destroy (t : τ)

namespace Desc

variable [DecidableEq φ]

/-- A call in progress: the state, and the files whose count it took to `0`. -/
structure Call (φ τ : Type*) where
  s : Desc φ τ
  dying : List φ

namespace Call

/-- `fhold(fp)` -/
def fhold (c : Call φ τ) (f : φ) : Call φ τ :=
  ⟨{ c.s with count := Function.update c.s.count f (c.s.count f + 1) }, c.dying⟩

/-- `fdrop(fp)`: the decrement, and `delete fp` to come if it was the last reference. -/
def fdrop (c : Call φ τ) (f : φ) : Call φ τ :=
  ⟨{ c.s with count := Function.update c.s.count f (c.s.count f - 1) },
    if c.s.count f = 1 then c.dying ++ [f] else c.dying⟩

def setSlot (c : Call φ τ) (fd : ℕ) (v : Option φ) : Call φ τ :=
  ⟨{ c.s with gfdt := Function.update c.s.gfdt fd v }, c.dying⟩

def setFlags (c : Call φ τ) (f : φ) (v : BitVec 32) : Call φ τ :=
  ⟨{ c.s with flags := Function.update c.s.flags f v }, c.dying⟩

/-- `fget(fd, &fp)`: the file at `fd` with a reference taken, if its count is positive. -/
def fget (c : Call φ τ) (fd : ℕ) : Except ℕ (φ × Call φ τ) :=
  if fd ≥ FDMAX then .error EBADF
  else match c.s.gfdt fd with
    | none => .error EBADF
    | some f => if 0 < c.s.count f then .ok (f, c.fhold f) else .error EBADF

/-- The first free slot of `_fdalloc`'s loop `for (fd = min_fd; fd < FDMAX; fd++)`. -/
def freeSlot (gfdt : ℕ → Option φ) (minFd : ℕ) : Option ℕ :=
  (List.range' minFd (FDMAX - minFd)).find? fun fd => (gfdt fd).isNone

/-- `_fdalloc(fp, &newfd, min_fd)`: a reference for the slot, or `EMFILE` with the reference
given back. -/
def fdalloc (c : Call φ τ) (f : φ) (minFd : ℕ) : Except ℕ ℕ × Call φ τ :=
  let c := c.fhold f
  match freeSlot c.s.gfdt minFd with
  | some fd => (.ok fd, c.setSlot fd (some f))
  | none => (.error EMFILE, c.fdrop f)

/-- `fdset(fd, fp)` -/
def fdset (c : Call φ τ) (fd : ℕ) (f : φ) : Except ℕ Unit × Call φ τ :=
  if fd ≥ FDMAX then (.error EBADF, c)
  else
    let c := c.fhold f
    let orig := c.s.gfdt fd
    let c := c.setSlot fd (some f)
    match orig with
    | some o => (.ok (), c.fdrop o)
    | none => (.ok (), c)

/-- `fdclose(fd)` -/
def fdclose (c : Call φ τ) (fd : ℕ) : Except ℕ Unit × Call φ τ :=
  match c.s.gfdt fd with
  | none => (.error EBADF, c)
  | some f => (.ok (), (c.setSlot fd none).fdrop f)

/-- What a call returns: `ret`, or `-1` with `errno`. -/
def ret (r : Except ℕ ℤ) : ℤ × ℕ :=
  match r with
  | .ok v => (v, 0)
  | .error e => (-1, e)

/-- `dup(oldfd)` -/
def dup (c : Call φ τ) (oldfd : ℕ) : Except ℕ ℤ × Call φ τ :=
  match c.fget oldfd with
  | .error e => (.error e, c)
  | .ok (f, c) =>
      match c.fdalloc f 0 with
      | (.error e, c) => (.error e, c.fdrop f)  -- `out_fdrop`
      | (.ok newfd, c) => (.ok newfd, c.fdrop f)

/-- `dup3(oldfd, newfd, flags)` -/
def dup3 (c : Call φ τ) (oldfd newfd : ℕ) (flags : BitVec 32) : Except ℕ ℤ × Call φ τ :=
  if flags &&& ~~~O_CLOEXEC ≠ 0 then (.error EINVAL, c)
  else if oldfd = newfd then (.error EINVAL, c)
  else
    match c.fget oldfd with
    | .error e => (.error e, c)
    | .ok (f, c) =>
        match c.fdset newfd f with
        | (.error e, c) => (.error e, c.fdrop f)
        | (.ok (), c) => (.ok newfd, c.fdrop f)

/-- `fcntl(fd, cmd, arg)`; `none` when its `assert` fails. -/
def fcntl (c : Call φ τ) (fd cmd : ℕ) (arg : BitVec 32) : Option (Except ℕ ℤ × Call φ τ) :=
  match c.fget fd with
  | .error e => some (.error e, c)
  | .ok (f, c) =>
      if cmd = F_DUPFD then
        match c.fdalloc f arg.toNat with
        -- `goto out_errno`, which skips `fdrop(fp)`
        | (.error e, c) => some (.error e, c)
        | (.ok newfd, c) => some (.ok newfd, c.fdrop f)
      else
        match fcntlFlags (c.s.flags f) cmd arg with
        | .ok r flags =>
            some (.ok r.toInt, (c.setFlags f flags).fdrop f)
        | .error e => some (.error e, c.fdrop f)
        | .abort => none

/-- `close(fd)` -/
def close (c : Call φ τ) (fd : ℕ) : Except ℕ ℤ × Call φ τ :=
  match c.fdclose fd with
  | (.error e, c) => (.error e, c)
  | (.ok (), c) => (.ok 0, c)

end Call

variable [DecidableEq τ]

/-- A call returns: the thread runs the destructors it has to, if any. -/
def finishCall (t : τ) (r : Except ℕ ℤ) (c : Call φ τ) : DescLabel τ × Desc φ τ :=
  (.returned t (Call.ret r).1 (Call.ret r).2,
    { c.s with pc := Function.update c.s.pc t (if c.dying = [] then .idle else .destroying c.dying) })

/-- One step, when it is enabled. -/
def exec (s : Desc φ τ) : DescAction φ τ → Option (DescLabel τ × Desc φ τ)
  | .dup t oldfd =>
      if s.pc t = .idle then some (finishCall t (Call.dup ⟨s, []⟩ oldfd).1 (Call.dup ⟨s, []⟩ oldfd).2)
      else none
  | .dup3 t oldfd newfd flags =>
      if s.pc t = .idle then
        some (finishCall t (Call.dup3 ⟨s, []⟩ oldfd newfd flags).1 (Call.dup3 ⟨s, []⟩ oldfd newfd flags).2)
      else none
  | .fcntl t fd cmd arg =>
      if s.pc t = .idle then
        match Call.fcntl ⟨s, []⟩ fd cmd arg with
        | some (r, c) => some (finishCall t r c)
        | none => some (.aborted t, s)
      else none
  | .close t fd =>
      if s.pc t = .idle then some (finishCall t (Call.close ⟨s, []⟩ fd).1 (Call.close ⟨s, []⟩ fd).2)
      else none
  | .pollWake t f =>
      if s.pc t = .idle then
        some (.internal, { (Call.fhold ⟨s, []⟩ f).s with pc := Function.update s.pc t (.polling f) })
      else none
  | .pollDone t =>
      match s.pc t with
      | .polling f =>
          let c := Call.fdrop ⟨s, []⟩ f
          some (.internal,
            { c.s with
              pc := Function.update s.pc t (if c.dying = [] then .idle else .destroying c.dying) })
      | _ => none
  | .destroy t =>
      match s.pc t with
      | .destroying (f :: rest) =>
          -- `file::~file`: `f_count = INT_MIN`, then `fo_close` and the rest
          some (.internal,
            { s with
              count := Function.update s.count f INT_MIN
              destroyed := Function.update s.destroyed f (s.destroyed f + 1)
              pc := Function.update s.pc t (if rest = [] then .idle else .destroying rest) })
      | _ => none

end Desc

/-- The descriptor calls on files `φ` by threads `τ`, from a table in which every file's count
is its number of slots, as `open` leaves it. -/
def descrip (φ τ : Type*) [DecidableEq φ] [DecidableEq τ] [Fintype φ] :
    System (Desc φ τ) (DescLabel τ) where
  init s := (∀ f, s.count f = ((List.range FDMAX).filter fun fd => s.gfdt fd = some f).length) ∧
    (∀ fd, FDMAX ≤ fd → s.gfdt fd = none) ∧ (∀ f, s.destroyed f = 0) ∧ ∀ t, s.pc t = .idle
  step s l s' := ∃ a, s.exec a = some (l, s')

/-- One file, readable and writable, at descriptor `0`, with its one reference. -/
def openOne : Desc Unit (Fin 2) :=
  ⟨fun fd => if fd = 0 then some () else none, fun _ => 1, fun _ => FREAD ||| FWRITE,
    fun _ => 0, fun _ => .idle⟩

/-- **A leaked reference and a second destructor run.**  From one file at descriptor `0`:
`fcntl(0, F_DUPFD, FDMAX)` fails with `EMFILE` and `close(0)` succeeds, and the file is left
with a count of `1`, no descriptor and no holder.  And: thread `0` closes descriptor `0`,
taking the count to `0`; before it runs the destructor, thread `1`'s `poll_wake` holds and drops
the file; both threads run `file::~file`. -/
theorem descriptor_leak_and_double_destroy :
    (descrip Unit (Fin 2)).init openOne ∧
    (∃ s, Exec (descrip Unit (Fin 2)) openOne [.returned 0 (-1) EMFILE, .returned 0 0 0] s ∧
      s.count () = 1 ∧ (∀ fd, s.gfdt fd = none) ∧ ∀ t, s.pc t = .idle) ∧
    ∃ ls s, Exec (descrip Unit (Fin 2)) openOne ls s ∧ s.destroyed () = 2 := by
  -- descriptor `0` is the only slot of the file
  have hslots : ((List.range FDMAX).filter fun fd => openOne.gfdt fd = some ()).length = 1 := by
    rw [show FDMAX = 16383 + 1 from rfl, List.range_succ_eq_map,
      List.filter_cons_of_pos (by simp [openOne]), List.filter_eq_nil_iff.mpr (by simp [openOne])]
    rfl
  refine ⟨⟨fun u => by rw [hslots]; rfl, fun fd h => ?_, fun _ => rfl, fun _ => rfl⟩, ?_, ?_⟩
  · have : fd ≠ 0 := by unfold FDMAX at h; omega
    simp [openOne, this]
  · refine ⟨_, .cons ⟨.fcntl 0 0 F_DUPFD (BitVec.ofNat 32 FDMAX), rfl⟩ <|
      .cons ⟨.close 0 0, rfl⟩ <| .nil _, rfl, fun fd => ?_, by decide⟩
    simp only [Desc.Call.close, Desc.Call.fdclose, Desc.Call.fdrop, Desc.Call.setSlot,
      Desc.Call.fhold, openOne]
    by_cases h : fd = 0 <;> simp [h]
  · exact ⟨_, _, .cons ⟨.close 0 0, rfl⟩ <| .cons ⟨.pollWake 1 (), rfl⟩ <|
      .cons ⟨.pollDone 1, rfl⟩ <| .cons ⟨.destroy 0, rfl⟩ <| .cons ⟨.destroy 1, rfl⟩ <| .nil _,
      rfl⟩

end Osv.Vfs
