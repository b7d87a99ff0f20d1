import Mathlib.Data.List.Basic
import Osv.Lib.Transition

/-!
# `pvclock`

`core/pvclock-abi.cc` reads the two structures the hypervisor shares with the guest,
`pvclock_wall_clock` and `pvclock_vcpu_time_info`.  The hypervisor updates each of them as a
seqlock writer: it increments `version` to an odd value, rewrites the fields, and increments
`version` again.  `wall_clock_boot` and `system_time` load `version`, compute their result from
the fields, load `version` again, and retry while the two loads differ.

The model has one step per shared access: each load of the readers (`rdtsc()` is a value the
step is given), and each write of the hypervisor, a write of the fields being allowed to
change any of them between the two increments.  The hypervisor's completed updates are kept,
with the initial contents, as ghost histories.

**What does not hold** (`pvclock_torn_reads`).  Neither reader tests whether `version` is odd.
A reader whose two loads of `version` both fall inside one update returns a value computed
from fields of two different updates: `wall_clock_boot` with the new `sec` and the old `nsec`,
`system_time` with the old `tsc_timestamp` and the new `system_time`.
-/

namespace Osv.Core

open Transition

variable {τ : Type*}

/-- The fields of `pvclock_wall_clock` after `version`. -/
structure WallFields where
  sec : UInt32
  nsec : UInt32
deriving DecidableEq

/-- The fields of `pvclock_vcpu_time_info` after `version` that `system_time` reads, and
`flags`. -/
structure TimeFields where
  tscTimestamp : UInt64
  systemTime : UInt64
  tscToSystemMul : UInt32
  tscShift : Int8
  flags : UInt8
deriving DecidableEq

/-- `w = u64(_wall->sec) * 1000000000 + _wall->nsec` -/
def wallClockValue (f : WallFields) : UInt64 := f.sec.toUInt64 * 1000000000 + f.nsec.toUInt64

/-- `if (sys->tsc_shift >= 0) time <<= sys->tsc_shift; else time >>= -sys->tsc_shift;` -/
def applyTscShift (time : UInt64) (shift : Int8) : UInt64 :=
  if 0 ≤ shift.toInt then time <<< UInt64.ofNat shift.toInt.toNat
  else time >>> UInt64.ofNat (-shift.toInt).toNat

/-- `mul %1; shrd $32, %%rdx, %0`: the 128-bit product shifted right by `32`, low 64 bits. -/
def mulShrd (time : UInt64) (mul : UInt32) : UInt64 := UInt64.ofNat (time.toNat * mul.toNat / 2 ^ 32)

/-- What `system_time` computes from `rdtsc()` and one set of fields. -/
def systemTimeValue (tsc : UInt64) (f : TimeFields) : UInt64 :=
  mulShrd (applyTscShift (tsc - f.tscTimestamp) f.tscShift) f.tscToSystemMul + f.systemTime

/-- Where a thread is in `wall_clock_boot` or `system_time`, with what it has loaded. -/
inductive ClockPc where
  | idle
  /-- At the top of `wall_clock_boot`'s loop. -/
  | wallStart
  | wallV1 (v1 : UInt32)
  | wallSec (v1 sec : UInt32)
  | wallNsec (v1 : UInt32) (w : UInt64)
  /-- At the top of `system_time`'s loop. -/
  | timeStart
  | timeV1 (v1 : UInt32)
  /-- After `time = processor::rdtsc() - sys->tsc_timestamp`. -/
  | timeDelta (v1 : UInt32) (tsc time : UInt64)
  /-- After the shift by `sys->tsc_shift`. -/
  | timeShifted (v1 : UInt32) (tsc time : UInt64)
  /-- After the multiplication by `sys->tsc_to_system_mul`. -/
  | timeScaled (v1 : UInt32) (tsc time : UInt64)
  /-- After `time += sys->system_time`. -/
  | timeSum (v1 : UInt32) (tsc time : UInt64)
deriving DecidableEq

/-- The two shared structures, the hypervisor and the readers. -/
structure Pvclock (τ : Type*) where
  wallVersion : UInt32
  wall : WallFields
  timeVersion : UInt32
  time : TimeFields
  /-- The hypervisor is between the two increments of `_wall->version`. -/
  wallWriting : Bool
  timeWriting : Bool
  /-- Ghost: the initial fields and those of every completed update, oldest first. -/
  wallHistory : List WallFields
  timeHistory : List TimeFields
  pc : τ → ClockPc

/-- What a step shows: a reader returning its value (with the `rdtsc()` it used). -/
inductive ClockLabel (τ : Type*) where
  | wallClockBoot (t : τ) (w : UInt64)
  | systemTime (t : τ) (tsc time : UInt64)
  | internal
deriving DecidableEq

/-- A step of the hypervisor or of a reader. -/
inductive ClockAction (τ : Type*) where
  | beginWall
  | writeWall (f : WallFields)
  | endWall
  | beginTime
  | writeTime (f : TimeFields)
  | endTime
  | callWallClockBoot (t : τ)
  | callSystemTime (t : τ)
  /-- The next load of a reader; `tsc` is what `rdtsc()` returns if that is the next step. -/
  | read (t : τ) (tsc : UInt64)

namespace Pvclock

variable [DecidableEq τ]

/-- Both structures hold what the hypervisor wrote last, with even versions; no thread reads. -/
def Initial (s : Pvclock τ) : Prop :=
  s.wallVersion % 2 = 0 ∧ s.timeVersion % 2 = 0 ∧ s.wallWriting = false ∧ s.timeWriting = false ∧
    s.wallHistory = [s.wall] ∧ s.timeHistory = [s.time] ∧ ∀ t, s.pc t = .idle

/-- `setPc` -/
def setPc (s : Pvclock τ) (t : τ) (p : ClockPc) : Pvclock τ := { s with pc := Function.update s.pc t p }

/-- The next load of a reader, and the result of a loop's last test. -/
def read (s : Pvclock τ) (t : τ) (tsc : UInt64) : Option (ClockLabel τ × Pvclock τ) :=
  match s.pc t with
  | .wallStart => some (.internal, s.setPc t (.wallV1 s.wallVersion))
  | .wallV1 v1 => some (.internal, s.setPc t (.wallSec v1 s.wall.sec))
  | .wallSec v1 sec => some (.internal, s.setPc t (.wallNsec v1 (wallClockValue ⟨sec, s.wall.nsec⟩)))
  | .wallNsec v1 w =>
      -- `v2 = _wall->version` and `while (v1 != v2)`
      if v1 = s.wallVersion then some (.wallClockBoot t w, s.setPc t .idle)
      else some (.internal, s.setPc t .wallStart)
  | .timeStart => some (.internal, s.setPc t (.timeV1 s.timeVersion))
  | .timeV1 v1 => some (.internal, s.setPc t (.timeDelta v1 tsc (tsc - s.time.tscTimestamp)))
  | .timeDelta v1 tsc time =>
      some (.internal, s.setPc t (.timeShifted v1 tsc (applyTscShift time s.time.tscShift)))
  | .timeShifted v1 tsc time =>
      some (.internal, s.setPc t (.timeScaled v1 tsc (mulShrd time s.time.tscToSystemMul)))
  | .timeScaled v1 tsc time =>
      some (.internal, s.setPc t (.timeSum v1 tsc (time + s.time.systemTime)))
  | .timeSum v1 tsc time =>
      if v1 = s.timeVersion then some (.systemTime t tsc time, s.setPc t .idle)
      else some (.internal, s.setPc t .timeStart)
  | .idle => none

/-- One step, when it is enabled. -/
def exec (s : Pvclock τ) : ClockAction τ → Option (ClockLabel τ × Pvclock τ)
  | .beginWall =>
      if s.wallWriting then none
      else some (.internal, { s with wallVersion := s.wallVersion + 1, wallWriting := true })
  | .writeWall f => if s.wallWriting then some (.internal, { s with wall := f }) else none
  | .endWall =>
      if s.wallWriting then
        some (.internal, { s with wallVersion := s.wallVersion + 1, wallWriting := false,
                                  wallHistory := s.wallHistory ++ [s.wall] })
      else none
  | .beginTime =>
      if s.timeWriting then none
      else some (.internal, { s with timeVersion := s.timeVersion + 1, timeWriting := true })
  | .writeTime f => if s.timeWriting then some (.internal, { s with time := f }) else none
  | .endTime =>
      if s.timeWriting then
        some (.internal, { s with timeVersion := s.timeVersion + 1, timeWriting := false,
                                  timeHistory := s.timeHistory ++ [s.time] })
      else none
  | .callWallClockBoot t => if s.pc t = .idle then some (.internal, s.setPc t .wallStart) else none
  | .callSystemTime t => if s.pc t = .idle then some (.internal, s.setPc t .timeStart) else none
  | .read t tsc => s.read t tsc

end Pvclock

/-- The hypervisor and readers `τ` of `pvclock`. -/
def pvclock (τ : Type*) [DecidableEq τ] : System (Pvclock τ) (ClockLabel τ) where
  init s := s.Initial
  step s l s' := ∃ a, s.exec a = some (l, s')

/-- The fields before the updates of `pvclock_torn_reads`: `sec = 1`, `nsec = 0`, and a
scale of one tick per nanosecond (`tsc_shift = 1`, `tsc_to_system_mul = 2 ^ 31`). -/
def tornStart : Pvclock Unit :=
  ⟨0, ⟨1, 0⟩, 0, ⟨0, 0, 2 ^ 31, 1, 0⟩, false, false, [⟨1, 0⟩], [⟨0, 0, 2 ^ 31, 1, 0⟩],
    fun _ => .idle⟩

/-- **Torn reads.**  The hypervisor starts an update of `pvclock_wall_clock`, a reader loads
`version`, the hypervisor writes `sec = 2`, the reader loads `sec`, `nsec` and `version` and
returns `2 * 10^9`; the hypervisor then writes `nsec = 500` and completes.  No completed update
wrote `sec = 2, nsec = 0`.  Likewise `system_time` at `rdtsc() = 100` combines the old
`tsc_timestamp = 0` with the new `system_time = 1000` and returns `1100`, where the fields
before the update give `100` and those after it `1000`. -/
theorem pvclock_torn_reads :
    (pvclock Unit).init tornStart ∧
    (∃ ls s, Exec (pvclock Unit) tornStart ls s ∧ s.wallWriting = false ∧
      ∃ w, ClockLabel.wallClockBoot () w ∈ ls ∧ ∀ f ∈ s.wallHistory, wallClockValue f ≠ w) ∧
    (∃ ls s, Exec (pvclock Unit) tornStart ls s ∧ s.timeWriting = false ∧
      ∃ tsc time, ClockLabel.systemTime () tsc time ∈ ls ∧
        ∀ f ∈ s.timeHistory, systemTimeValue tsc f ≠ time) := by
  refine ⟨⟨rfl, rfl, rfl, rfl, rfl, rfl, fun _ => rfl⟩, ?_, ?_⟩
  · have h : Exec (pvclock Unit) tornStart _ _ :=
      .cons ⟨.beginWall, rfl⟩ <| .cons ⟨.callWallClockBoot (), rfl⟩ <| .cons ⟨.read () 0, rfl⟩ <|
      .cons ⟨.writeWall ⟨2, 0⟩, rfl⟩ <| .cons ⟨.read () 0, rfl⟩ <| .cons ⟨.read () 0, rfl⟩ <|
      .cons ⟨.read () 0, rfl⟩ <| .cons ⟨.writeWall ⟨2, 500⟩, rfl⟩ <| .cons ⟨.endWall, rfl⟩ <|
      .nil _
    exact ⟨_, _, h, rfl, 2000000000, by decide, by decide⟩
  · have h : Exec (pvclock Unit) tornStart _ _ :=
      .cons ⟨.beginTime, rfl⟩ <| .cons ⟨.callSystemTime (), rfl⟩ <| .cons ⟨.read () 0, rfl⟩ <|
      .cons ⟨.read () 100, rfl⟩ <| .cons ⟨.read () 0, rfl⟩ <| .cons ⟨.read () 0, rfl⟩ <|
      .cons ⟨.writeTime ⟨100, 1000, 2 ^ 31, 1, 0⟩, rfl⟩ <| .cons ⟨.read () 0, rfl⟩ <|
      .cons ⟨.read () 0, rfl⟩ <| .cons ⟨.endTime, rfl⟩ <| .nil _
    exact ⟨_, _, h, rfl, 100, 1100, by decide, by decide⟩

end Osv.Core
