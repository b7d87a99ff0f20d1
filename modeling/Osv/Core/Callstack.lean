import Mathlib

/-!
# The call-stack collector

A `callstack_collector` (`core/callstack.cc`) counts the backtraces seen at the tracepoints it
is attached to.  Its constructor takes `nr_traces * trace_object_size()` bytes for the trace
objects and gives each cpu a hash table of `nr_traces` buckets.  `hit()` takes a backtrace of
at most `min(100, _skip_frames + _nr_frames)` frames into the array `bt0[100]`, drops the first
`_skip_frames`, and looks the rest up in the cpu's table with `bt_trace_compare`; a trace found
gets one more hit, and otherwise `alloc_trace` bumps the cursor `_free_traces` by
`trace_object_size()` and builds a new trace there.  `stop()` merges every other cpu's table into
cpu 0's: a trace cpu 0 has (`operator==`) gets the other's hits, and one it lacks is moved.
`histogram(n)` keeps, over every cpu's table, the `n` traces with most hits.

**The model.**  Addresses and program counters are natural numbers, and `hits` does not reach
`2 ^ 32`.  A trace object is at its address in `objects`; a table is the list of its traces'
addresses, in the order they were inserted, and `find` returns the first one that matches in
the bucket of the hash.  `bt0` is the list of its 100 slots after `backtrace_safe`: the frames
it wrote, then what the stack held.  A read past `bt0` is `none`.

**What holds.**  Traces are laid out one after the other from `_buffer` (`hit_laid`), and a
hit is counted on a trace whose `pc[0..len)` are the first `len` frames of the backtrace
(`lookup_prefix`).

**What does not** (`callstack_collector_overflow_and_miscount`).  `alloc_trace` never checks the
cursor against the end of the buffer, so the null check in `hit` is dead and `_overflow` is never
set: the trace after the first `nr_traces` is built past the buffer.  The lookup does not compare
lengths: a backtrace that extends a stored trace in its bucket is counted on it.  `merge` leaves
a trace cpu 0 has in the other cpu's table, so `histogram` lists it twice.  And a backtrace of
fewer than `_skip_frames` frames makes `nr` negative, which the hash reads as an unsigned
length, past `bt0`.
-/

namespace Osv.Core.Callstack

/-- `sizeof(callstack_collector::trace)`: the hook's next pointer, `hits` and `len`. -/
def sizeofTrace : ℕ := 16

/-- A `callstack_collector::trace`: `hits`, and `len` program counters `pc[0..len)`. -/
structure Trace where
  hits : ℕ
  len : ℕ
  pc : List ℕ
  pc_length : pc.length = len

/-- One round of `backtrace_hash`: rotate by `7` and xor in the next program counter, which
`std::hash<const void*>` hashes to itself. -/
def rotXor (r : UInt64) (p : ℕ) : UInt64 := ((r <<< 7) ||| (r >>> 57)) ^^^ p.toUInt64

/-- `backtrace_hash(nr)(bt)`: `none` when it reads past `bt`. -/
def backtraceHash (nr : ℕ) (bt : List ℕ) : Option UInt64 :=
  if nr ≤ bt.length then some ((bt.take nr).foldl rotXor 0) else none

/-- `hash_value(trace)`. -/
def Trace.hashValue (t : Trace) : UInt64 := t.pc.foldl rotXor 0

/-- The collector: its parameters, `_buffer` and `_free_traces`, the trace objects, each cpu's
table, and `_overflow`. -/
structure Collector where
  nrTraces : ℕ
  skipFrames : ℕ
  nrFrames : ℕ
  buffer : ℕ
  freeTraces : ℕ
  objects : ℕ → Option Trace
  tables : ℕ → List ℕ
  overflow : Bool

namespace Collector

/-- `callstack_collector(nr_traces, skip_frames, nr_frames)`, with `malloc` returning
`buffer`. -/
def new (nrTraces skipFrames nrFrames buffer : ℕ) : Collector :=
  ⟨nrTraces, skipFrames, nrFrames, buffer, buffer, fun _ => none, fun _ => [], false⟩

variable (s : Collector)

/-- `trace_object_size()`. -/
def traceObjectSize : ℕ := sizeofTrace + s.nrFrames * 8

/-- The bucket of a hash in a table of `nr_traces` buckets. -/
def bucketOf (h : UInt64) : ℕ := h.toNat % s.nrTraces

/-- `table->find(bt, hash, bt_trace_compare)` over the traces `as` of a table: the first trace
in the bucket of `h` whose `pc[0..len)` are `bt[0..len)`; `none` when the comparison reads past
`bt0`. -/
def lookup (h : UInt64) (bt : List ℕ) : List ℕ → Option (Option ℕ)
  | [] => some none
  | a :: as =>
      match s.objects a with
      | some t =>
          if s.bucketOf t.hashValue = s.bucketOf h then
            if t.len ≤ bt.length then
              if bt.take t.len = t.pc then some (some a) else lookup h bt as
            else none
          else lookup h bt as
      | none => lookup h bt as

/-- `++i->hits`. -/
def bumpHits (a : ℕ) : Collector :=
  { s with objects := Function.update s.objects a ((s.objects a).map fun t => { t with hits := t.hits + 1 }) }

/-- `alloc_trace(bt, nr)` and the insertion of the new trace into the table of `cpu`, with its
first hit: `none` when the copy reads past `bt0`. -/
def allocTrace (cpu : ℕ) (bt : List ℕ) (nr : ℕ) : Option Collector :=
  let t := s.freeTraces
  if hnr : nr ≤ bt.length then
    let tr : Trace := ⟨0, nr, bt.take nr, by rw [List.length_take]; omega⟩
    let s := { s with freeTraces := t + s.traceObjectSize }
    -- `if (!t)`: the cursor is the address the trace was built at
    if t = 0 then some { s with overflow := true }
    else
      some ({ s with
        objects := Function.update s.objects t (some tr)
        tables := Function.update s.tables cpu (s.tables cpu ++ [t]) }.bumpHits t)
  else none

/-- `hit()` on `cpu`, where `backtrace_safe` returned `nr0` and left the slots `bt0`. -/
def hit (cpu : ℕ) (bt0 : List ℕ) (nr0 : ℕ) : Option Collector :=
  let bt := bt0.drop s.skipFrames
  -- `nr -= _skip_frames` on an `int`, read as `unsigned` by the hash and the trace
  let nr : ℕ := (((nr0 : ℤ) - s.skipFrames) % 2 ^ 32).toNat
  (backtraceHash nr bt).bind fun h =>
    (s.lookup h bt (s.tables cpu)).bind fun found =>
      match found with
      | some a => some (s.bumpHits a)
      | none => s.allocTrace cpu bt nr

/-! ## stop and histogram -/

/-- The body of `merge`'s loop over the table of `c`, for the trace at `a`. -/
def mergeTrace (c : ℕ) (s : Collector) (a : ℕ) : Collector :=
  match s.objects a with
  | none => s
  | some t =>
      match (s.tables 0).find? (fun b => (s.objects b).any fun u => u.len == t.len && u.pc == t.pc) with
      | some i =>
          { s with
            objects := Function.update s.objects i ((s.objects i).map fun u => { u with hits := u.hits + t.hits }) }
      | none =>
          { s with
            tables := Function.update (Function.update s.tables c ((s.tables c).erase a)) 0
              (s.tables 0 ++ [a]) }

/-- `merge()` over the cpus `0 .. ncpus - 1`: the tables of the cpus after cpu 0, in turn. -/
def merge (ncpus : ℕ) : Collector :=
  (List.range' 1 (ncpus - 1)).foldl (fun s c => (s.tables c).foldl (mergeTrace c) s) s

/-- `stop()`. -/
def stop (ncpus : ℕ) : Collector := s.merge ncpus

/-- The hits of the trace at `a`. -/
def hitsAt (a : ℕ) : ℕ := (s.objects a).elim 0 Trace.hits

/-- `histogram_compare`: more hits first, then the lower address. -/
def histogramBefore (a b : ℕ) : Prop := s.hitsAt b < s.hitsAt a ∨ (s.hitsAt a = s.hitsAt b ∧ a < b)

instance : DecidableRel s.histogramBefore := fun a b =>
  inferInstanceAs (Decidable (s.hitsAt b < s.hitsAt a ∨ (s.hitsAt a = s.hitsAt b ∧ a < b)))

/-- `histogram(n)`: over every cpu's table, a set of at most `n` traces ordered by
`histogram_compare`, whose last is dropped when it grows past `n`. -/
def histogram (ncpus n : ℕ) : List ℕ :=
  ((List.range ncpus).flatMap s.tables).foldl (fun h a =>
    let h := if a ∈ h then h else h.orderedInsert s.histogramBefore a
    if n < h.length then h.dropLast else h) []

/-! ## What a hit does -/

/-- **A hit is counted on a trace whose program counters begin the backtrace**: the lookup
compares the first `len` frames and no more. -/
theorem lookup_prefix {h : UInt64} {bt : List ℕ} {a : ℕ} :
    ∀ {as : List ℕ}, s.lookup h bt as = some (some a) →
      a ∈ as ∧ ∃ t, s.objects a = some t ∧ bt.take t.len = t.pc
  | [], hl => by cases hl
  | b :: as, hl => by
      unfold lookup at hl
      cases ho : s.objects b with
      | none =>
          rw [ho] at hl
          obtain ⟨hmem, hrest⟩ := lookup_prefix hl
          exact ⟨List.mem_cons_of_mem b hmem, hrest⟩
      | some t =>
          rw [ho] at hl
          dsimp only at hl
          split_ifs at hl with hb hlen heq
          · cases hl
            exact ⟨List.mem_cons_self, t, ho, heq⟩
          · obtain ⟨hmem, hrest⟩ := lookup_prefix hl
            exact ⟨List.mem_cons_of_mem b hmem, hrest⟩
          · obtain ⟨hmem, hrest⟩ := lookup_prefix hl
            exact ⟨List.mem_cons_of_mem b hmem, hrest⟩

@[simp] theorem bumpHits_isSome (a b : ℕ) : ((s.bumpHits a).objects b).isSome = (s.objects b).isSome := by
  by_cases hab : b = a
  · subst hab
    simp [bumpHits]
  · simp [bumpHits, Function.update_of_ne hab]

@[simp] theorem bumpHits_freeTraces (a : ℕ) : (s.bumpHits a).freeTraces = s.freeTraces := rfl
@[simp] theorem bumpHits_buffer (a : ℕ) : (s.bumpHits a).buffer = s.buffer := rfl
@[simp] theorem bumpHits_nrFrames (a : ℕ) : (s.bumpHits a).nrFrames = s.nrFrames := rfl
@[simp] theorem bumpHits_overflow (a : ℕ) : (s.bumpHits a).overflow = s.overflow := rfl

/-- A trace allocated at a cursor that is not null: the cursor moves on by one trace object,
and the only new object is at the old cursor. -/
theorem allocTrace_of_ne_zero {cpu nr : ℕ} {bt : List ℕ} {s' : Collector} (hfree : s.freeTraces ≠ 0)
    (h : s.allocTrace cpu bt nr = some s') :
    s'.freeTraces = s.freeTraces + s.traceObjectSize ∧ s'.buffer = s.buffer ∧
      s'.nrFrames = s.nrFrames ∧ s'.overflow = s.overflow ∧ (s'.objects s.freeTraces).isSome ∧
      ∀ b, b ≠ s.freeTraces → (s'.objects b).isSome = (s.objects b).isSome := by
  unfold allocTrace at h
  by_cases hnr : nr ≤ bt.length
  · rw [dif_pos hnr] at h
    dsimp only at h
    rw [if_neg hfree] at h
    cases h
    refine ⟨rfl, rfl, rfl, rfl, by simp, fun b hb => ?_⟩
    rw [bumpHits_isSome]
    simp [Function.update_of_ne hb]
  · rw [dif_neg hnr] at h
    cases h

/-- What `hit` can do: count a hit on a trace it found, or allocate a trace at the cursor. -/
theorem hit_cases {cpu : ℕ} {bt0 : List ℕ} {nr0 : ℕ} {s' : Collector}
    (hfree : s.freeTraces ≠ 0) (h : s.hit cpu bt0 nr0 = some s') :
    (∃ a, s' = s.bumpHits a) ∨
      (s'.freeTraces = s.freeTraces + s.traceObjectSize ∧ s'.buffer = s.buffer ∧
        s'.nrFrames = s.nrFrames ∧ s'.overflow = s.overflow ∧
        (s'.objects s.freeTraces).isSome ∧
        ∀ b, b ≠ s.freeTraces → (s'.objects b).isSome = (s.objects b).isSome) := by
  unfold hit at h
  obtain ⟨hh, -, hl⟩ := Option.bind_eq_some_iff.mp h
  obtain ⟨found, -, hf⟩ := Option.bind_eq_some_iff.mp hl
  cases found with
  | some a =>
      cases hf
      exact Or.inl ⟨a, rfl⟩
  | none => exact Or.inr (s.allocTrace_of_ne_zero hfree hf)

/-- The traces built so far: `k` of them, one after the other from `_buffer`, and the cursor
after them. -/
def Laid (k : ℕ) : Prop :=
  s.freeTraces = s.buffer + k * s.traceObjectSize ∧
    ∀ a, (s.objects a).isSome → ∃ i < k, a = s.buffer + i * s.traceObjectSize

/-- **A hit keeps the traces laid out from `_buffer`**: it builds a new trace, if any, at the
cursor, the end of those already built, whatever `nr_traces` is. -/
theorem hit_laid {k cpu : ℕ} {bt0 : List ℕ} {nr0 : ℕ} {s' : Collector} (hbuf : 0 < s.buffer)
    (hlaid : s.Laid k) (h : s.hit cpu bt0 nr0 = some s') :
    s'.buffer = s.buffer ∧ s'.nrFrames = s.nrFrames ∧ s'.overflow = s.overflow ∧
      (s'.Laid k ∨ (s'.Laid (k + 1) ∧ (s'.objects (s.buffer + k * s.traceObjectSize)).isSome)) := by
  obtain ⟨hfree, hobj⟩ := hlaid
  rcases s.hit_cases (by omega) h with ⟨a, rfl⟩ | ⟨hf, hb, hn, ho, hnew, hold⟩
  · exact ⟨rfl, rfl, rfl, Or.inl ⟨hfree, fun b hsome => hobj b (by simpa using hsome)⟩⟩
  · have hsize : s'.traceObjectSize = s.traceObjectSize := by simp only [traceObjectSize, hn]
    refine ⟨hb, hn, ho, Or.inr ⟨⟨?_, fun b hsome => ?_⟩, hfree ▸ hnew⟩⟩
    · rw [hf, hfree, hb, hsize, Nat.succ_mul, Nat.add_assoc]
    · by_cases hbk : b = s.freeTraces
      · exact ⟨k, Nat.lt_succ_self k, by rw [hbk, hfree, hb, hsize]⟩
      · obtain ⟨i, hi, rfl⟩ := hobj b (by rw [← hold b hbk]; exact hsome)
        exact ⟨i, Nat.lt_succ_of_lt hi, by rw [hb, hsize]⟩

end Collector

/-! ## Four runs that go wrong -/

/-- The slots of `bt0` after `backtrace_safe` wrote the frames `fs`: the frames, then zeros. -/
def slots (fs : List ℕ) : List ℕ := fs ++ List.replicate (100 - fs.length) 0

open Collector in
/-- **The collector neither bounds its buffer nor counts exactly.**  A hit never sets
`_overflow`, and every trace it allocates goes at the end of those already built, whatever
`nr_traces` is.  With room for one trace of one frame (24 bytes at `0x1000`), a second
backtrace is built at `0x1018`, past the buffer, and `_overflow` stays clear.  With one bucket,
the backtrace `[5, 6]` is counted on the stored trace `[5]`.  After the same backtrace on cpus 0
and 1, `stop` and `histogram` list it twice, with 2 hits and with 1.  With `_skip_frames = 2` a
backtrace of one frame makes the hash read past `bt0`. -/
theorem callstack_collector_overflow_and_miscount :
    (∀ (s : Collector) (k cpu : ℕ) (bt0 : List ℕ) (nr0 : ℕ) (s' : Collector), 0 < s.buffer →
      s.Laid k → s.hit cpu bt0 nr0 = some s' →
        s'.overflow = s.overflow ∧
          (s'.freeTraces ≠ s.freeTraces → (s'.objects (s.buffer + k * s.traceObjectSize)).isSome)) ∧
    (new 1 0 1 0x1000).traceObjectSize = 24 ∧
    (((new 1 0 1 0x1000).hit 0 (slots [5]) 1).bind fun s => s.hit 0 (slots [6]) 1).map
      (fun s => ((s.objects 0x1018).isSome, s.overflow)) = some (true, false) ∧
    (((new 1 0 2 0x1000).hit 0 (slots [5]) 1).bind fun s => s.hit 0 (slots [5, 6]) 2).map
      (fun s => ((s.objects 0x1000).map fun t => (t.pc, t.hits), (s.objects 0x1020).isSome)) =
        some (some ([5], 2), false) ∧
    (((new 4 0 1 0x1000).hit 0 (slots [5]) 1).bind fun s => s.hit 1 (slots [5]) 1).map
      (fun s => ((s.stop 2).histogram 2 10).map fun a => ((s.stop 2).objects a).map fun t => (t.pc, t.hits)) =
        some [some ([5], 2), some ([5], 1)] ∧
    (new 4 2 1 0x1000).hit 0 (slots [5]) 1 = none := by
  refine ⟨fun s k cpu bt0 nr0 s' hbuf hlaid h => ?_, by decide, by decide, by decide, by decide, by decide⟩
  obtain ⟨hb, hn, ho, hk | ⟨-, hnew⟩⟩ := s.hit_laid hbuf hlaid h
  · -- a hit that allocated nothing leaves the cursor where it was
    refine ⟨ho, fun hne => absurd ?_ hne⟩
    have hsize : s'.traceObjectSize = s.traceObjectSize := by simp only [traceObjectSize, hn]
    rw [hk.1, hlaid.1, hb, hsize]
  · exact ⟨ho, fun _ => hnew⟩

end Osv.Core.Callstack
