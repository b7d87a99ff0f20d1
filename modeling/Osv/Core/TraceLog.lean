import Osv.Core.TraceFormat

/-!
# The trace buffer and one record of it

`core/trace.cc` keeps the records of all tracepoints in `trace_log`, `max_trace` bytes used as a
ring, and the byte count `trace_record_last`.  `allocate_trace_record(size)` reserves the record
header and `size` bytes, rounded up to a `long`, after `trace_record_last`; a record that would
cross a `trace_page_size` boundary goes to the start of the next page, and the first word at the
old position, a record's `tp`, is cleared to mark the rest of the page as padding.
`tracepointv::log` then stores the header (`tp`, `thread`, `time`, `cpu`, the `backtrace` bit),
the backtrace when `_log_backtrace` is on, and the arguments.

`all_traces` in `scripts/loader.py` reads the buffer rotated to start at the page after
`trace_record_last`, and walks it: a 32-byte header (`QQQII`); on a null `tp` the next page; else
the backtrace if `flags & 1`, the arguments by the tracepoint's signature, and the next multiple
of `8`.

`decodeAt` is one turn of that loop, `allTraces` the whole script.  The main fact of this
module, `decodeAt_writeRecord`, is the round trip of one record: wherever the decoder finds the
bytes `log` stored, it yields the record's fields and arguments and moves on by exactly the size
`allocate_trace_record` reserved.

The record is written at once: the stores `time = 0`, `cpu = -1` that a thread's clock and cpu
overwrite, and the `backtrace = false` that `log_backtrace` sets again, are folded into their
final values.  The compare-and-swap loop of `allocate_trace_record` runs once, records being
appended one at a time.
-/

namespace Osv.Core

open Bytes

/-- `trace_page_size` -/
def tracePageSize : ℕ := 4096

/-- `max_trace` -/
def maxTrace : ℕ := tracePageSize * 1024

/-- `sizeof(trace_record)`: `tp`, `thread`, `time`, `cpu`, the `backtrace` bit, and the buffer
aligned to a `long`. -/
def traceRecordSize : ℕ := 32

/-- `tracepoint_base::backtrace_len` -/
def backtraceLen : ℕ := 10

/-- `trace_log` and `trace_record_last`. -/
structure TraceLog where
  traceLog : Mem
  traceRecordLast : ℕ

/-- The static buffer, zero before the first record. -/
def TraceLog.init : TraceLog := ⟨fun _ => 0, 0⟩

/-- The body of the loop of `allocate_trace_record`: the new `trace_record_last` for a record
of `size` bytes after `p`, on the next page if the record would end past this one. -/
def nextLast (p size : ℕ) : ℕ :=
  if alignDown p tracePageSize ≠ alignDown (p + size) tracePageSize then
    alignUp p tracePageSize + size
  else p + size

/-- `allocate_trace_record(size)`: the record's offset in `trace_log`, and the buffer with
`trace_record_last` advanced and the `tp` at the old position cleared. -/
def allocateTraceRecord (t : TraceLog) (size : ℕ) : ℕ × TraceLog :=
  let size := alignUp (size + traceRecordSize) 8
  let p := t.traceRecordLast
  let pn := nextLast p size
  ((pn - size) % maxTrace, ⟨write t.traceLog (p % maxTrace) (toListLE 8 0), pn⟩)

/-- A call of `tracepointv::log`: the tracepoint `tp`, the current thread (`0` for none), the
clock and cpu id it reads for a thread, the backtrace when `_log_backtrace` is on, and the
arguments. -/
structure Entry where
  tp : UInt64
  thread : UInt64
  clock : UInt64
  cpuId : UInt32
  backtrace : Option (List UInt64)
  args : List Arg

namespace Entry

/-- `tr->time`: the clock, `0` without a thread. -/
def time (e : Entry) : UInt64 := if e.thread ≠ 0 then e.clock else 0

/-- `tr->cpu`: the cpu's id, `-1` without a thread. -/
def cpu (e : Entry) : UInt32 := if e.thread ≠ 0 then e.cpuId else 0xffffffff

/-- `tracepoint_base::base_size()` -/
def baseSize (e : Entry) : ℕ := if e.backtrace.isSome then backtraceLen * 8 else 0

/-- `tracepointv::size()` -/
def size (e : Entry) : ℕ := e.baseSize + serializerSize 0 (e.args.map Arg.type)

/-- The bytes `allocate_trace_record(size())` reserves. -/
def reserved (e : Entry) : ℕ := alignUp (e.size + traceRecordSize) 8

end Entry

/-- The header stores of `tracepointv::log` into the record at `pos`. -/
def writeHeader (m : Mem) (pos : ℕ) (e : Entry) : Mem :=
  let m := write m pos (toListLE 8 e.tp.toNat)
  let m := write m (pos + 8) (toListLE 8 e.thread.toNat)
  let m := write m (pos + 16) (toListLE 8 e.time.toNat)
  let m := write m (pos + 24) (toListLE 4 e.cpu.toNat)
  -- `tr->backtrace` is bit `0` of the byte after `cpu`
  write m (pos + 28) [m (pos + 28) &&& 0xfe ||| if e.backtrace.isSome then 1 else 0]

/-- The stores of `tracepointv::log` into the record at `pos`: the header, the backtrace, and
the arguments after them. -/
def writeRecord (m : Mem) (pos : ℕ) (e : Entry) : Mem :=
  let m := writeHeader m pos e
  let m := match e.backtrace with
    | some bt => write m (pos + traceRecordSize) (bt.flatMap fun w => toListLE 8 w.toNat)
    | none => m
  serializerWrite m (pos + traceRecordSize + e.baseSize) 0 e.args

/-- `tracepointv::log(as)` with `logging` on. -/
def TraceLog.log (t : TraceLog) (e : Entry) : TraceLog :=
  let (pos, t) := allocateTraceRecord t e.size
  { t with traceLog := writeRecord t.traceLog pos e }

/-! ## The decoder -/

/-- A `Trace` of `all_traces`: the tracepoint's address, the thread, time and cpu, the
arguments, and the backtrace. -/
structure Trace where
  tp : UInt64
  thread : UInt64
  time : UInt64
  cpu : UInt32
  data : List Value
  backtrace : Option (List UInt64)
deriving DecidableEq

/-- One turn of the loop of `all_traces` at `i` of the rotated buffer `v`, the signature of a
tracepoint read through its address by `sigOf`: the trace, none past a null `tp`, and the next
`i`; `none` for the `struct.error` of a slice cut short by the end of the buffer or of a format
`struct` cannot parse. -/
def decodeAt (sigOf : UInt64 → UInt64) (v : Mem) (i : ℕ) : Option (Option Trace × ℕ) :=
  if maxTrace < i + 32 then none
  else
    let tpKey := ofListLE (read v i 8)
    if tpKey = 0 then some (none, alignUp (i + 8) tracePageSize)
    else
      let flags := ofListLE (read v (i + 28) 4)
      match parseFormat none (sigToString (sigOf (UInt64.ofNat tpKey))) with
      | none => none
      | some fmt =>
          let j := i + 32
          let (backtrace, j) :=
            if flags % 2 = 1 then
              (some ((List.range backtraceLen).map fun k => UInt64.ofNat (ofListLE (read v (j + 8 * k) 8))),
                j + 8 * backtraceLen)
            else (none, j)
          -- the backtrace's slice lies below the arguments', so one test covers both
          if maxTrace < j + calcsize fmt then none
          else
            some (some ⟨UInt64.ofNat tpKey, UInt64.ofNat (ofListLE (read v (i + 8) 8)),
                UInt64.ofNat (ofListLE (read v (i + 16) 8)), UInt32.ofNat (ofListLE (read v (i + 24) 4)),
                unpackFrom v j 0 fmt, backtrace⟩,
              alignUp (j + calcsize fmt) 8)

/-- The `while i < last` loop of `all_traces`, with `fuel` turns left. -/
def decodeLoop (sigOf : UInt64 → UInt64) (v : Mem) (last : ℕ) : ℕ → ℕ → Option (List Trace)
  | 0, i => if i < last then none else some []
  | fuel + 1, i =>
      if i < last then
        match decodeAt sigOf v i with
        | none => none
        | some (tr, j) => (tr.toList ++ ·) <$> decodeLoop sigOf v last fuel j
      else some []

/-- The buffer as `all_traces` reads it: `trace_log[pivot:] + trace_log[:pivot]`, `pivot` the
page after `trace_record_last % max_trace`. -/
def rotatedLog (t : TraceLog) : Mem :=
  fun r => t.traceLog ((r + alignUp (t.traceRecordLast % maxTrace) tracePageSize) % maxTrace)

/-- Where the walk of `all_traces` ends, `last += max_trace - pivot`. -/
def rotatedLast (t : TraceLog) : ℕ :=
  t.traceRecordLast % maxTrace + maxTrace - alignUp (t.traceRecordLast % maxTrace) tracePageSize

/-- `all_traces()`; the loop takes at most `max_trace` turns, each at least one byte on. -/
def allTraces (sigOf : UInt64 → UInt64) (t : TraceLog) : Option (List Trace) :=
  decodeLoop sigOf (rotatedLog t) (rotatedLast t) maxTrace 0

/-! ## One record -/

/-- What the decoder should yield for a record. -/
def Entry.trace (e : Entry) : Trace :=
  ⟨e.tp, e.thread, e.time, e.cpu, e.args.map Arg.value, e.backtrace⟩

/-- A record as `log` stores it for a tracepoint with at most eight arguments: the tracepoint's
`sig` is the signature of its argument types, its address is not null, and a backtrace has
`backtrace_len` words. -/
structure Entry.WellFormed (sigOf : UInt64 → UInt64) (e : Entry) : Prop where
  tp_ne : e.tp ≠ 0
  sig : sigOf e.tp = signatureHelper (e.args.map Arg.type)
  args_le : e.args.length ≤ 8
  backtrace_length : ∀ bt, e.backtrace = some bt → bt.length = backtraceLen

/-! ## The round trip of one record -/

section Record

variable {sigOf : UInt64 → UInt64} {e : Entry} {m : Mem} {pos : ℕ}

theorem writeRecord_apply_of_lt {x : ℕ} (h : x < pos + traceRecordSize) :
    writeRecord m pos e x = writeHeader m pos e x := by
  unfold writeRecord
  rw [serializerWrite_apply_of_lt (by omega)]
  rcases hb : e.backtrace with _ | bt
  · rfl
  · exact write_apply_of_not_mem (Or.inl h)

theorem toNat_backtraceBit (x : UInt8) (b : Bool) :
    (x &&& 0xfe ||| if b then 1 else 0).toNat % 2 = if b then 1 else 0 := by
  cases b with
  | true =>
      simp only [if_true, UInt8.toNat_or]
      exact Nat.or_mod_two_eq_one.mpr (Or.inr rfl)
  | false =>
      simp only [Bool.false_eq_true, if_false, UInt8.toNat_or, UInt8.toNat_and]
      have h : ¬ (x.toNat &&& (0xfe : UInt8).toNat ||| (0 : UInt8).toNat) % 2 = 1 := by
        rw [Nat.or_mod_two_eq_one, Nat.and_mod_two_eq_one]
        rintro (⟨_, h⟩ | h) <;> revert h <;> decide
      omega

/-- The header fields read back. -/
theorem read_writeHeader (m : Mem) (pos : ℕ) (e : Entry) :
    read (writeHeader m pos e) pos 8 = toListLE 8 e.tp.toNat ∧
      read (writeHeader m pos e) (pos + 8) 8 = toListLE 8 e.thread.toNat ∧
      read (writeHeader m pos e) (pos + 16) 8 = toListLE 8 e.time.toNat ∧
      read (writeHeader m pos e) (pos + 24) 4 = toListLE 4 e.cpu.toNat ∧
      (writeHeader m pos e (pos + 28)).toNat % 2 = if e.backtrace.isSome then 1 else 0 := by
  unfold writeHeader
  refine ⟨?_, ?_, ?_, ?_, ?_⟩
  · rw [read_write_of_disjoint (by simp), read_write_of_disjoint (by simp),
      read_write_of_disjoint (by simp), read_write_of_disjoint (by simp),
      read_write_of_length (length_toListLE _ _)]
  · rw [read_write_of_disjoint (by simp), read_write_of_disjoint (by simp),
      read_write_of_disjoint (by simp), read_write_of_length (length_toListLE _ _)]
  · rw [read_write_of_disjoint (by simp), read_write_of_disjoint (by simp),
      read_write_of_length (length_toListLE _ _)]
  · rw [read_write_of_disjoint (by simp), read_write_of_length (length_toListLE _ _)]
  · rw [← Nat.add_zero (pos + 28), write_apply_add (by simp)]
    exact toNat_backtraceBit _ _

/-- A word's number read back. -/
theorem ofListLE_toListLE_toNat (x : UInt64) : UInt64.ofNat (ofListLE (toListLE 8 x.toNat)) = x := by
  rw [ofListLE_toListLE, Nat.mod_eq_of_lt (by simpa using x.toNat_lt), UInt64.ofNat_toNat]

theorem reserved_ge (e : Entry) : e.size + traceRecordSize ≤ e.reserved :=
  le_alignUp (by decide)

/-- `align_up` to `8` from a multiple of `8`. -/
theorem alignUp_add_eight {i x : ℕ} (hi : i % 8 = 0) : alignUp (i + x) 8 = i + alignUp x 8 := by
  unfold alignUp alignDown
  omega

/-- The backtrace words read back. -/
theorem read_backtrace {bt : List UInt64} (hbt : bt.length = backtraceLen) (m : Mem) (a : ℕ) :
    ((List.range backtraceLen).map fun k =>
        UInt64.ofNat (ofListLE (read (write m a (bt.flatMap fun w => toListLE 8 w.toNat)) (a + 8 * k) 8))) =
      bt := by
  apply List.ext_getElem (by simp [hbt])
  intro k hk _
  simp only [List.length_map, List.length_range] at hk
  have hlen := length_flatMap_const (fun w => length_toListLE 8 (UInt64.toNat w)) bt
  rw [List.getElem_map, List.getElem_range, read_write_sub _ _ _ (by rw [hlen, hbt]; omega),
    flatMap_drop_take (fun w => length_toListLE 8 w.toNat) bt k (by omega), ofListLE_toListLE_toNat]

/-- **One record read back.**  Wherever the decoder finds the bytes `log` stored for a
well-formed record, at a multiple of `8` and before the end of the buffer, it yields the
record's trace and moves on by the size `allocate_trace_record` reserved. -/
theorem decodeAt_writeRecord (he : e.WellFormed sigOf) {v : Mem} {i : ℕ} (hi : i % 8 = 0)
    (hroom : i + e.reserved ≤ maxTrace)
    (hv : ∀ k < e.reserved, v (i + k) = writeRecord m pos e (pos + k)) :
    decodeAt sigOf v i = some (some e.trace, i + e.reserved) := by
  have hsz := reserved_ge e
  have hbase : e.baseSize ≤ backtraceLen * 8 := by
    unfold Entry.baseSize
    split_ifs <;> decide
  have hsize : e.size = e.baseSize + serializerSize 0 (e.args.map Arg.type) := rfl
  have hrec : traceRecordSize = 32 := rfl
  -- the decoder's loads are the record's, and below the backtrace the header's
  have hload : ∀ off n, off + n ≤ e.reserved →
      read v (i + off) n = read (writeRecord m pos e) (pos + off) n := fun off n h =>
    read_congr fun k hk => by rw [Nat.add_assoc, hv _ (by omega), Nat.add_assoc]
  have hhead : ∀ off n, off + n ≤ traceRecordSize →
      read v (i + off) n = read (writeHeader m pos e) (pos + off) n := fun off n h => by
    rw [hload off n (by omega)]
    exact read_congr fun k hk => writeRecord_apply_of_lt (by omega)
  obtain ⟨h0, h8, h16, h24, h28⟩ := read_writeHeader m pos e
  have htpKey : ofListLE (read v i 8) = e.tp.toNat := by
    have := hhead 0 8 (by omega)
    rw [Nat.add_zero, Nat.add_zero] at this
    rw [this, h0, ofListLE_toListLE, Nat.mod_eq_of_lt (by simpa using e.tp.toNat_lt)]
  have htp0 : e.tp.toNat ≠ 0 := fun h => he.tp_ne (UInt64.toNat_inj.mp (by simpa using h))
  have hflags : ofListLE (read v (i + 28) 4) % 2 = if e.backtrace.isSome then 1 else 0 := by
    rw [hhead 28 4 (by omega), Bytes.read, ofListLE_cons_mod_two, h28]
  have hfmt : parseFormat none (sigToString (sigOf (UInt64.ofNat e.tp.toNat))) =
      some (e.args.map fun a => a.type.field) := by
    rw [UInt64.ofNat_toNat, he.sig, parseFormat_sigToString (by simpa using he.args_le),
      List.map_map]
    rfl
  have hcalc : calcsize (e.args.map fun a => a.type.field) = serializerSize 0 (e.args.map Arg.type) := by
    rw [← calcsize_eq_serializerSize, List.map_map]
    rfl
  -- the arguments, from after the backtrace
  have hdata : unpackFrom v (i + 32 + e.baseSize) 0 (e.args.map fun a => a.type.field) =
      e.args.map Arg.value := by
    rw [unpackFrom_congr (w := writeRecord m pos e) (b := pos + traceRecordSize + e.baseSize)
      fun k hk => by
        rw [← calcsize_eq, hcalc] at hk
        rw [show i + 32 + e.baseSize + k = i + (32 + e.baseSize + k) by omega,
          hv _ (by omega), hrec]
        congr 1
        omega]
    exact unpackFrom_serializerWrite _ _ _ _
  have hnext : alignUp (i + 32 + e.baseSize + serializerSize 0 (e.args.map Arg.type)) 8 =
      i + e.reserved := by
    rw [show i + 32 + e.baseSize + serializerSize 0 (e.args.map Arg.type) = i + (e.size + 32) by
      omega, alignUp_add_eight hi]
    rfl
  have hfield : ∀ (off w : ℕ) (x : ℕ), off + w ≤ traceRecordSize →
      read (writeHeader m pos e) (pos + off) w = toListLE w x → ofListLE (read v (i + off) w) = x % 256 ^ w :=
    fun off w x h hx => by rw [hhead off w h, hx, ofListLE_toListLE]
  have hthread := hfield 8 8 _ (by omega) h8
  have htime := hfield 16 8 _ (by omega) h16
  have hcpu := hfield 24 4 _ (by omega) h24
  rw [Nat.mod_eq_of_lt (by simpa using e.thread.toNat_lt)] at hthread
  rw [Nat.mod_eq_of_lt (by simpa using e.time.toNat_lt)] at htime
  rw [Nat.mod_eq_of_lt (by simpa using e.cpu.toNat_lt)] at hcpu
  unfold decodeAt
  rw [if_neg (by omega), htpKey, if_neg htp0]
  simp only [hflags, hfmt]
  rcases hb : e.backtrace with _ | bt
  · -- no backtrace: the arguments follow the header
    have hb0 : e.baseSize = 0 := by simp [Entry.baseSize, hb]
    rw [hb0, Nat.add_zero] at hdata hnext
    simp only [Option.isSome_none, Bool.false_eq_true, if_false, Nat.zero_ne_one]
    rw [hcalc, if_neg (by omega), hdata, hnext, hthread, htime, hcpu]
    simp only [Entry.trace, hb, UInt64.ofNat_toNat, UInt32.ofNat_toNat]
  · -- the backtrace words, then the arguments
    have hb0 : e.baseSize = backtraceLen * 8 := by simp [Entry.baseSize, hb]
    rw [hb0] at hdata hnext
    have hbt : ((List.range backtraceLen).map fun k =>
        UInt64.ofNat (ofListLE (read v (i + 32 + 8 * k) 8))) = bt := by
      have hlen := he.backtrace_length bt hb
      rw [← read_backtrace hlen (writeHeader m pos e) (pos + traceRecordSize)]
      refine List.map_congr_left fun k hk => ?_
      rw [List.mem_range] at hk
      rw [show i + 32 + 8 * k = i + (32 + 8 * k) by omega, hload _ 8 (by
        unfold backtraceLen at hk hbase hb0; omega)]
      refine congrArg _ (congrArg _ (read_congr fun j hj => ?_))
      unfold writeRecord
      rw [serializerWrite_apply_of_lt (by rw [hb0, hrec]; unfold backtraceLen at hk ⊢; omega), hb,
        show pos + (32 + 8 * k) + j = pos + traceRecordSize + 8 * k + j by omega]
    simp only [Option.isSome_some, if_true]
    rw [hcalc, if_neg (by unfold backtraceLen at hb0 ⊢; omega), hbt]
    rw [show i + 32 + 8 * backtraceLen = i + 32 + backtraceLen * 8 by rw [Nat.mul_comm], hdata,
      hnext, hthread, htime, hcpu]
    simp only [Entry.trace, hb, UInt64.ofNat_toNat, UInt32.ofNat_toNat]

theorem writeHeader_apply_of_not_mem {x : ℕ} (h : x < pos ∨ pos + traceRecordSize ≤ x) :
    writeHeader m pos e x = m x := by
  have hrec : traceRecordSize = 32 := rfl
  unfold writeHeader
  rw [write_apply_of_not_mem (by simp; omega), write_apply_of_not_mem (by simp; omega),
    write_apply_of_not_mem (by simp; omega), write_apply_of_not_mem (by simp; omega),
    write_apply_of_not_mem (by simp; omega)]

/-- `log` stores nothing outside the bytes it reserved. -/
theorem writeRecord_apply_of_not_mem (he : e.WellFormed sigOf) {x : ℕ}
    (h : x < pos ∨ pos + e.reserved ≤ x) : writeRecord m pos e x = m x := by
  have hsz := reserved_ge e
  have hsize : e.size = e.baseSize + serializerSize 0 (e.args.map Arg.type) := rfl
  have hrec : traceRecordSize = 32 := rfl
  unfold writeRecord
  rcases h with h | h
  · rw [serializerWrite_apply_of_lt (by omega)]
    rcases hb : e.backtrace with _ | bt
    · exact writeHeader_apply_of_not_mem (Or.inl h)
    · dsimp only
      rw [write_apply_of_not_mem (Or.inl (by omega))]
      exact writeHeader_apply_of_not_mem (Or.inl h)
  · rw [serializerWrite_apply_of_ge (by omega)]
    rcases hb : e.backtrace with _ | bt
    · exact writeHeader_apply_of_not_mem (Or.inr (by omega))
    · have hlen := length_flatMap_const (fun w => length_toListLE 8 (UInt64.toNat w)) bt
      have hb0 : e.baseSize = backtraceLen * 8 := by simp [Entry.baseSize, hb]
      rw [he.backtrace_length bt hb] at hlen
      unfold backtraceLen at hlen hb0
      dsimp only
      rw [write_apply_of_not_mem (Or.inr (by omega))]
      exact writeHeader_apply_of_not_mem (Or.inr (by omega))

end Record

end Osv.Core
