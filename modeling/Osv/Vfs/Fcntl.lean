import Mathlib.Data.BitVec

/-!
# File flags and the flag commands of `fcntl`

A `struct file` keeps one `int f_flags`.  `sys_open` stores `fflags(flags)` there: the access
mode `O_RDONLY`, `O_WRONLY`, `O_RDWR` plus one, which gives the separate bits `FREAD` and
`FWRITE` (`osv/fcntl.h`), together with every other bit of the `open()` flags, apart from
`O_CREAT` and, for a created file, `O_TRUNC`.  `sys_read` and `sys_write` test `FREAD` and
`FWRITE`; `shutdown_af_local` clears them.  `fcntl` (`fs/vfs/main.cc`) reads and writes the
same word: `F_GETFD` and `F_SETFD` through `FD_CLOEXEC`, `F_GETFL` and `F_SETFL` through
`oflags` and `fflags`.

Flags are `BitVec 32`, the width of `int`; the constants are those of `x86_64/bits/fcntl.h`
and `api/fcntl.h`.  `sysOpen` keeps the flag handling of `sys_open` for a regular file the
caller may access; the lookup and creation are its `found` argument.

**What does not hold** (`fcntl_flag_commands_clash`).  `FD_CLOEXEC` is `1`, which is also
`FREAD`: `F_SETFD` writes the read permission (`setfd_fread`), and `F_GETFD` reports it.
`F_GETFL` reports every flag `open()` kept, `O_CLOEXEC` included, and `-1` once `shutdown`
cleared both access bits; `F_SETFL` asserts that no bit outside `SETFL` and `SETFL_IGNORED`
is set, so `F_SETFL` with the value of `F_GETFL` or-ed with `O_NONBLOCK` aborts on a file
opened with `O_CLOEXEC`.
-/

namespace Osv.Vfs

/-- `O_SEARCH`, also `O_EXEC` and `O_PATH` -/
def O_SEARCH : BitVec 32 := 0o10000000
def O_ACCMODE : BitVec 32 := 0o3 ||| O_SEARCH
def O_RDONLY : BitVec 32 := 0o0
def O_WRONLY : BitVec 32 := 0o1
def O_RDWR : BitVec 32 := 0o2
def O_CREAT : BitVec 32 := 0o100
def O_EXCL : BitVec 32 := 0o200
def O_NOCTTY : BitVec 32 := 0o400
def O_TRUNC : BitVec 32 := 0o1000
def O_APPEND : BitVec 32 := 0o2000
def O_NONBLOCK : BitVec 32 := 0o4000
def O_ASYNC : BitVec 32 := 0o20000
def O_CLOEXEC : BitVec 32 := 0o2000000
def FD_CLOEXEC : BitVec 32 := 1
def FREAD : BitVec 32 := 0x00000001
def FWRITE : BitVec 32 := 0x00000002
/-- `FNONBLOCK` is `O_NONBLOCK`, `FASYNC` is `O_ASYNC`. -/
def FNONBLOCK : BitVec 32 := O_NONBLOCK
def FASYNC : BitVec 32 := O_ASYNC

def F_DUPFD : ℕ := 0
def F_GETFD : ℕ := 1
def F_SETFD : ℕ := 2
def F_GETFL : ℕ := 3
def F_SETFL : ℕ := 4

def SHUT_RD : ℕ := 0
def SHUT_WR : ℕ := 1
def SHUT_RDWR : ℕ := 2

def EINVAL : ℕ := 22
def EEXIST : ℕ := 17
def ENOENT : ℕ := 2

/-- `SETFL` of `fcntl`: the bits `F_SETFL` may change. -/
def SETFL : BitVec 32 := O_APPEND ||| O_NONBLOCK ||| O_ASYNC
/-- `SETFL_IGNORED` of `fcntl`: the bits `F_SETFL` drops from its argument. -/
def SETFL_IGNORED : BitVec 32 :=
  O_RDONLY ||| O_WRONLY ||| O_RDWR ||| O_CREAT ||| O_EXCL ||| O_NOCTTY ||| O_TRUNC

/-- `fflags(oflags)`: the access mode plus one, and the other bits as they are. -/
def fflags (oflags : BitVec 32) : BitVec 32 :=
  ((oflags &&& O_ACCMODE) + 1) ||| (oflags &&& ~~~O_ACCMODE)

/-- `oflags(fflags)`: `FREAD`/`FWRITE` minus one, and the other bits as they are. -/
def oflags (fflags : BitVec 32) : BitVec 32 :=
  ((fflags &&& (FREAD ||| FWRITE)) - 1) ||| (fflags &&& ~~~(FREAD ||| FWRITE))

/-- The flag handling of `sys_open` for a regular file the caller may access: `found` says
whether the path names a file.  The result is the `f_flags` that `finit` stores, or the
error. -/
def sysOpen (flags : BitVec 32) (found : Bool) : Except ℕ (BitVec 32) := do
  let flags := fflags flags
  let flags ← if flags &&& O_CREAT ≠ 0 then
      if !found then pure (flags &&& ~~~O_TRUNC &&& ~~~O_CREAT)
      else if flags &&& O_EXCL ≠ 0 then throw EEXIST
      else pure (flags &&& ~~~O_CREAT)
    else if !found then throw ENOENT
    else pure flags
  -- `O_TRUNC` without `FWRITE` is refused
  if flags &&& O_TRUNC ≠ 0 ∧ flags &&& FWRITE = 0 then throw EINVAL
  pure flags

/-- The `f_flags` that `socketpair_af_local` gives both ends. -/
def socketpairFlags : BitVec 32 := FREAD ||| FWRITE

/-- What `shutdown_af_local(fd, how)` leaves in `f_flags`; `none` for `EINVAL`. -/
def shutdownFlags (f : BitVec 32) (how : ℕ) : Option (BitVec 32) :=
  if how = SHUT_RD then some (f &&& ~~~FREAD)
  else if how = SHUT_WR then some (f &&& ~~~FWRITE)
  else if how = SHUT_RDWR then some (f &&& ~~~(FREAD ||| FWRITE))
  else none

/-- `sys_read`'s test `(fp->f_flags & FREAD) == 0` fails. -/
def readAllowed (f : BitVec 32) : Prop := f &&& FREAD ≠ 0

/-- `sys_write`'s test `(fp->f_flags & FWRITE) == 0` fails. -/
def writeAllowed (f : BitVec 32) : Prop := f &&& FWRITE ≠ 0

instance (f : BitVec 32) : Decidable (readAllowed f) := inferInstanceAs (Decidable (_ ≠ _))
instance (f : BitVec 32) : Decidable (writeAllowed f) := inferInstanceAs (Decidable (_ ≠ _))

/-- How a flag command of `fcntl` ends: its return value and the new `f_flags`, an error, or
the failed `assert` of `F_SETFL`. -/
inductive FcntlResult where
  | ok (ret : BitVec 32) (flags : BitVec 32)
  | error (e : ℕ)
  | abort
deriving DecidableEq

/-- The commands of `fcntl` other than `F_DUPFD`, on a file's `f_flags`. -/
def fcntlFlags (f : BitVec 32) (cmd : ℕ) (arg : BitVec 32) : FcntlResult :=
  if cmd = F_GETFD then .ok (f &&& FD_CLOEXEC) f
  else if cmd = F_SETFD then .ok 0 ((f &&& ~~~FD_CLOEXEC) ||| (arg &&& FD_CLOEXEC))
  else if cmd = F_GETFL then .ok (oflags f) f
  else if cmd = F_SETFL then
    -- `arg &= ~SETFL_IGNORED; assert((arg & ~SETFL) == 0);`
    let arg := arg &&& ~~~SETFL_IGNORED
    if arg &&& ~~~SETFL = 0 then .ok 0 (fflags ((oflags f &&& ~~~SETFL) ||| (arg &&& SETFL)))
    else .abort
  else .error EINVAL

/-- **`F_SETFD` writes `FREAD`.**  After `F_SETFD`, the file is readable for `sys_read` exactly
when the argument has `FD_CLOEXEC`, whatever it was before. -/
theorem setfd_fread (f arg : BitVec 32) :
    ∃ f', fcntlFlags f F_SETFD arg = .ok 0 f' ∧ (readAllowed f' ↔ arg &&& FD_CLOEXEC ≠ 0) := by
  refine ⟨_, rfl, ?_⟩
  have hbit : ((f &&& ~~~FD_CLOEXEC) ||| (arg &&& FD_CLOEXEC)) &&& FREAD = arg &&& FD_CLOEXEC := by
    ext i hi
    simp only [FD_CLOEXEC, FREAD, BitVec.getElem_and, BitVec.getElem_or, BitVec.getElem_not]
    by_cases h : i = 0
    · subst h
      simp
    · simp [BitVec.getElem_one, h]
  rw [readAllowed, hbit]

/-- **The flag commands clash with the access mode.**  (a) A file opened `O_WRONLY` passes
`sys_read`'s test after `F_SETFD(FD_CLOEXEC)`; (b) `F_GETFD` on a file opened `O_RDONLY`
reports `FD_CLOEXEC`; (c) `F_GETFL` on a socket after `shutdown(SHUT_RDWR)` returns `-1`; (d) on
a file opened `O_RDONLY | O_CLOEXEC`, `F_SETFL` with `F_GETFL`'s value or-ed with `O_NONBLOCK`
fails its `assert`. -/
theorem fcntl_flag_commands_clash :
    (∃ f f', sysOpen O_WRONLY true = .ok f ∧ ¬ readAllowed f ∧
      fcntlFlags f F_SETFD FD_CLOEXEC = .ok 0 f' ∧ readAllowed f') ∧
    (∃ f, sysOpen O_RDONLY true = .ok f ∧ fcntlFlags f F_GETFD 0 = .ok FD_CLOEXEC f) ∧
    (∃ f, shutdownFlags socketpairFlags SHUT_RDWR = some f ∧ fcntlFlags f F_GETFL 0 = .ok (-1) f) ∧
    ∃ f g, sysOpen (O_RDONLY ||| O_CLOEXEC) true = .ok f ∧ fcntlFlags f F_GETFL 0 = .ok g f ∧
      fcntlFlags f F_SETFL (g ||| O_NONBLOCK) = .abort :=
  ⟨⟨_, _, rfl, by decide, rfl, by decide⟩, ⟨_, rfl, rfl⟩, ⟨_, rfl, rfl⟩, ⟨_, _, rfl, rfl, rfl⟩⟩

end Osv.Vfs
