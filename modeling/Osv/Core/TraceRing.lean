import Mathlib.Data.List.Induction
import Osv.Core.TraceLog

/-!
# Every run of the trace ring reads back

A run is a sequence of `log` calls from the empty buffer.  `trace_record_last` counts bytes
without bound; `placements` says where each record of the run went in that count, and
`trace_log` holds the count modulo `max_trace`.  The decoder reads the `max_trace` bytes up to
the page after `trace_record_last`: the records that start there or later, `survivors`, are
intact, the older ones partly overwritten.

`Inv` is what a run keeps: each surviving record is where the decoder reads it back
(`RecordAt`), each page a record left early ends in a cleared `tp` (`PadAt`), and the buffer
past the cursor is still zero.  `Inv.log` is its step lemma: the stores of one call land in the
bytes between the old and the new cursor, so they touch nothing the window still shows.

The walk of the decoder is then read off the layout: through zero pages up to the first record
(`walk_zero`, while the ring has not wrapped), or from the first surviving record, which starts
a page (`walk_lead`); from record to record and over each page's padding (`walk`).  The result,
`trace_ring_round_trip`, holds for tracepoints of at most eight arguments: with a ninth, the
signature loses characters and the decoder reads too few bytes (`trace_record_nine_arguments`).
-/

namespace Osv.Core

open Bytes

/-! ## Where the records of a run go -/

/-- The records of `es` logged from `trace_record_last = p`, with where each starts. -/
def placements : ℕ → List Entry → List (ℕ × Entry)
  | _, [] => []
  | p, e :: es => (nextLast p e.reserved - e.reserved, e) :: placements (nextLast p e.reserved) es

/-- `trace_record_last` after `es` is logged from `p`. -/
def cursor : ℕ → List Entry → ℕ
  | p, [] => p
  | p, e :: es => cursor (nextLast p e.reserved) es

/-- The values of `trace_record_last` from which a record of `es` went on to the next page,
clearing the `tp` there. -/
def crossings : ℕ → List Entry → List ℕ
  | _, [] => []
  | p, e :: es =>
      (if nextLast p e.reserved = p + e.reserved then [] else [p]) ++ crossings (nextLast p e.reserved) es

/-- The records of `es`, logged from the start, that the decoder still sees: those from
`max_trace` bytes before the page after the last one. -/
def survivors (es : List Entry) : List Entry :=
  ((placements 0 es).filter fun r => alignUp (cursor 0 es) tracePageSize ≤ r.1 + maxTrace).map Prod.snd

theorem placements_cons (p : ℕ) (e : Entry) (es : List Entry) :
    placements p (e :: es) = (nextLast p e.reserved - e.reserved, e) :: placements (nextLast p e.reserved) es :=
  rfl

theorem cursor_cons (p : ℕ) (e : Entry) (es : List Entry) :
    cursor p (e :: es) = cursor (nextLast p e.reserved) es := rfl

theorem crossings_cons (p : ℕ) (e : Entry) (es : List Entry) :
    crossings p (e :: es) =
      (if nextLast p e.reserved = p + e.reserved then [] else [p]) ++ crossings (nextLast p e.reserved) es :=
  rfl

theorem placements_append (p : ℕ) (es es' : List Entry) :
    placements p (es ++ es') = placements p es ++ placements (cursor p es) es' := by
  induction es generalizing p with
  | nil => rfl
  | cons e es ih => rw [List.cons_append, placements_cons, placements_cons, ih, List.cons_append, cursor_cons]

theorem cursor_append (p : ℕ) (es es' : List Entry) :
    cursor p (es ++ es') = cursor (cursor p es) es' := by
  induction es generalizing p with
  | nil => rfl
  | cons e es ih => rw [List.cons_append, cursor_cons, ih, cursor_cons]

theorem crossings_append (p : ℕ) (es es' : List Entry) :
    crossings p (es ++ es') = crossings p es ++ crossings (cursor p es) es' := by
  induction es generalizing p with
  | nil => rfl
  | cons e es ih => rw [List.cons_append, crossings_cons, crossings_cons, ih, List.append_assoc, cursor_cons]

/-! ## The cursor arithmetic -/

/-- `allocate_trace_record` on: a record of fewer bytes than a page after `p` ends in the page
of `p`, or the page after, which it then starts. -/
theorem nextLast_cases (p s : ℕ) (hs : s < tracePageSize) :
    (nextLast p s = p + s ∧ p % tracePageSize + s < tracePageSize) ∨
      (nextLast p s = p - p % tracePageSize + tracePageSize + s ∧ p % tracePageSize ≠ 0 ∧
        tracePageSize ≤ p % tracePageSize + s) := by
  unfold nextLast alignUp alignDown
  unfold tracePageSize at *
  split_ifs with h <;> omega

theorem le_nextLast (p s : ℕ) : p + s ≤ nextLast p s := by
  unfold nextLast
  split_ifs
  · have := le_alignUp (n := p) (show 0 < tracePageSize by decide)
    omega
  · exact Nat.le_refl _

theorem le_cursor (p : ℕ) (es : List Entry) : p ≤ cursor p es := by
  induction es generalizing p with
  | nil => exact Nat.le_refl _
  | cons e es ih => exact Nat.le_trans (Nat.le_trans (Nat.le_add_right _ _) (le_nextLast p _)) (ih _)

section Run

variable {sigOf : UInt64 → UInt64}

/-- A record of a tracepoint with at most eight arguments reserves a multiple of `8` bytes, at
least the header and less than a page. -/
theorem reserved_spec {e : Entry} (he : e.WellFormed sigOf) :
    e.reserved % 8 = 0 ∧ 32 ≤ e.reserved ∧ e.reserved < tracePageSize := by
  have hsz := reserved_ge e
  have hargs := serializerSize_le 0 (e.args.map Arg.type)
  have hlen : (e.args.map Arg.type).length ≤ 8 := by simpa using he.args_le
  have hbase : e.baseSize ≤ 80 := by
    unfold Entry.baseSize backtraceLen
    split_ifs <;> decide
  have hsize : e.size = e.baseSize + serializerSize 0 (e.args.map Arg.type) := rfl
  have hrec : traceRecordSize = 32 := rfl
  unfold Entry.reserved alignUp alignDown tracePageSize
  unfold Entry.reserved at hsz
  have := Nat.div_mul_le_self (e.size + traceRecordSize + 8 - 1) 8
  omega

/-- Where a record of a run starts: on past the cursor, a multiple of `8`, and ending inside
its page. -/
theorem start_spec {p : ℕ} {e : Entry} (hp : p % 8 = 0) (he : e.WellFormed sigOf) :
    nextLast p e.reserved - e.reserved + e.reserved = nextLast p e.reserved ∧
      p ≤ nextLast p e.reserved - e.reserved ∧ (nextLast p e.reserved - e.reserved) % 8 = 0 ∧
      (nextLast p e.reserved - e.reserved) % tracePageSize + e.reserved < tracePageSize := by
  obtain ⟨hs8, hs32, hsp⟩ := reserved_spec he
  rcases nextLast_cases p e.reserved hsp with ⟨h1, h2⟩ | ⟨h1, h2, h3⟩ <;>
    · rw [h1]
      unfold tracePageSize at *
      omega

theorem cursor_mod_eight {p : ℕ} (hp : p % 8 = 0) :
    ∀ {es : List Entry}, (∀ e ∈ es, e.WellFormed sigOf) → cursor p es % 8 = 0 := by
  intro es
  induction es generalizing p with
  | nil => intro _; exact hp
  | cons e es ih =>
      intro hwf
      have hstart := start_spec hp (hwf e List.mem_cons_self)
      have hs := (reserved_spec (hwf e List.mem_cons_self)).1
      exact ih (by omega) fun e' he' => hwf e' (List.mem_cons_of_mem e he')

/-- The records of a run lie between its first and last cursor, each inside one page. -/
theorem mem_placements {p : ℕ} (hp : p % 8 = 0) :
    ∀ {es : List Entry}, (∀ e ∈ es, e.WellFormed sigOf) → ∀ {a : ℕ} {e : Entry},
      (a, e) ∈ placements p es → p ≤ a ∧ a % 8 = 0 ∧ a % tracePageSize + e.reserved < tracePageSize ∧
        a + e.reserved ≤ cursor p es := by
  intro es
  induction es generalizing p with
  | nil => intro _ a e h; cases h
  | cons e es ih =>
      intro hwf a e' h
      have hstart := start_spec hp (hwf e List.mem_cons_self)
      have hs := (reserved_spec (hwf e List.mem_cons_self)).1
      have hrest := fun e'' he'' => hwf e'' (List.mem_cons_of_mem e he'')
      rcases List.mem_cons.mp h with h | h
      · obtain ⟨rfl, rfl⟩ := Prod.mk.inj h
        have := le_cursor (nextLast p e'.reserved) es
        exact ⟨hstart.2.1, hstart.2.2.1, hstart.2.2.2, by rw [cursor_cons]; omega⟩
      · obtain ⟨h1, h2, h3, h4⟩ := ih (p := nextLast p e.reserved) (by omega) hrest h
        exact ⟨by omega, h2, h3, h4⟩

theorem mem_crossings {p : ℕ} (hp : p % 8 = 0) :
    ∀ {es : List Entry}, (∀ e ∈ es, e.WellFormed sigOf) → ∀ {q : ℕ},
      q ∈ crossings p es → p ≤ q ∧ q % 8 = 0 ∧ q + 8 ≤ cursor p es := by
  intro es
  induction es generalizing p with
  | nil => intro _ q h; cases h
  | cons e es ih =>
      intro hwf q h
      have hstart := start_spec hp (hwf e List.mem_cons_self)
      obtain ⟨hs8, hs32, hsp⟩ := reserved_spec (hwf e List.mem_cons_self)
      have hrest := fun e'' he'' => hwf e'' (List.mem_cons_of_mem e he'')
      have hcur := le_cursor (nextLast p e.reserved) es
      rw [crossings_cons, List.mem_append] at h
      rcases h with h | h
      · -- the record after `q = p` went on to the next page, at least `8` bytes on
        split_ifs at h with hcross
        · cases h
        · rw [List.mem_singleton] at h
          subst h
          rcases nextLast_cases q e.reserved hsp with ⟨h1, -⟩ | ⟨h1, h2, -⟩
          · exact absurd h1 hcross
          · rw [cursor_cons]
            unfold tracePageSize at h1 h2
            omega
      · obtain ⟨h1, h2, h3⟩ := ih (p := nextLast p e.reserved) (by omega) hrest h
        exact ⟨by omega, h2, by rw [cursor_cons]; exact h3⟩

/-! ## What a run keeps -/

/-- The record `e` at `a` reads back from `trace_log`: from any copy of its bytes at a multiple
of `8` before the end of the buffer, the decoder yields its trace and moves past it. -/
def RecordAt (sigOf : UInt64 → UInt64) (log : Mem) (a : ℕ) (e : Entry) : Prop :=
  ∀ (v : Mem) (i : ℕ), i % 8 = 0 → i + e.reserved ≤ maxTrace →
    (∀ k < e.reserved, v (i + k) = log ((a + k) % maxTrace)) →
      decodeAt sigOf v i = some (some e.trace, i + e.reserved)

/-- The `tp` that `allocate_trace_record` cleared at `q`. -/
def PadAt (log : Mem) (q : ℕ) : Prop := ∀ k < 8, log ((q + k) % maxTrace) = 0

theorem RecordAt.congr {log log' : Mem} {a : ℕ} {e : Entry} (h : RecordAt sigOf log a e)
    (hlog : ∀ k < e.reserved, log' ((a + k) % maxTrace) = log ((a + k) % maxTrace)) :
    RecordAt sigOf log' a e :=
  fun v i hi hroom hv => h v i hi hroom fun k hk => (hv k hk).trans (hlog k hk)

/-- **The invariant of a run** `es` from the empty buffer: the cursor is where the run left
it; every record and every cleared `tp` from the window on is intact; past the cursor the buffer
is still zero. -/
structure Inv (sigOf : UInt64 → UInt64) (t : TraceLog) (es : List Entry) : Prop where
  last : t.traceRecordLast = cursor 0 es
  records : ∀ a e, (a, e) ∈ placements 0 es →
    alignUp t.traceRecordLast tracePageSize ≤ a + maxTrace → RecordAt sigOf t.traceLog a e
  pads : ∀ q ∈ crossings 0 es,
    alignUp t.traceRecordLast tracePageSize ≤ q + maxTrace → PadAt t.traceLog q
  fresh : ∀ x, t.traceRecordLast ≤ x → x < maxTrace → t.traceLog x = 0

theorem inv_init : Inv sigOf TraceLog.init [] where
  last := rfl
  records := fun _ _ h => by cases h
  pads := fun _ h => by cases h
  fresh := fun _ _ _ => rfl

/-- **The stores of one `log` call** land between the old and the new `trace_record_last`. -/
theorem log_apply {t : TraceLog} {e : Entry} (he : e.WellFormed sigOf) (hL : t.traceRecordLast % 8 = 0)
    {x : ℕ} (hx : ∀ y, t.traceRecordLast ≤ y → y < nextLast t.traceRecordLast e.reserved →
      y % maxTrace ≠ x) :
    (t.log e).traceLog x = t.traceLog x := by
  set L := t.traceRecordLast
  have hstart := start_spec hL he
  obtain ⟨hs8, hs32, hsp⟩ := reserved_spec he
  set a := nextLast L e.reserved - e.reserved
  have hM : maxTrace = 4096 * 1024 := rfl
  unfold tracePageSize at hstart hsp
  show writeRecord (write t.traceLog (L % maxTrace) (toListLE 8 0)) (a % maxTrace) e x = t.traceLog x
  rw [writeRecord_apply_of_not_mem he ?_, write_apply_of_not_mem ?_]
  · -- the cleared `tp` at the old cursor
    by_contra hin
    simp only [length_toListLE] at hin
    rw [hM] at hin hx
    exact hx (L + (x - L % (4096 * 1024))) (by omega) (by omega) (by omega)
  · -- the record
    by_contra hin
    rw [hM] at hin hx
    exact hx (a + (x - a % (4096 * 1024))) (by omega) (by omega) (by omega)

theorem alignUp_mono {x y : ℕ} (h : x ≤ y) : alignUp x tracePageSize ≤ alignUp y tracePageSize := by
  unfold alignUp alignDown tracePageSize
  omega

/-- **The step lemma.**  One more `log` call of a well-formed record keeps the invariant. -/
theorem Inv.log {t : TraceLog} {es : List Entry} {e : Entry} (hinv : Inv sigOf t es)
    (hwf : ∀ e' ∈ es, e'.WellFormed sigOf) (he : e.WellFormed sigOf) :
    Inv sigOf (t.log e) (es ++ [e]) := by
  have hL8 : t.traceRecordLast % 8 = 0 := hinv.last ▸ cursor_mod_eight (Nat.zero_mod 8) hwf
  have hstart := start_spec hL8 he
  obtain ⟨hs8, hs32, hsp⟩ := reserved_spec he
  set L := t.traceRecordLast with hL
  set s := e.reserved
  set a := nextLast L s - s
  have hM : maxTrace = 4096 * 1024 := rfl
  have hB := alignUp_mono (Nat.le_trans (Nat.le_add_right L s) (le_nextLast L s))
  have hlast : (t.log e).traceRecordLast = nextLast L s := rfl
  have hB' := le_alignUp (n := nextLast L s) (show 0 < tracePageSize by decide)
  -- what the window still shows after this call lies below the old cursor, within `max_trace`
  -- bytes of every store of the call
  have hshow : ∀ z, z < L → alignUp (nextLast L s) tracePageSize ≤ z + maxTrace →
      ∀ y, L ≤ y → y < nextLast L s → y % maxTrace ≠ z % maxTrace := by
    intro z hz hwin y hy1 hy2
    rw [hM] at hwin ⊢
    omega
  have hpl : placements 0 (es ++ [e]) = placements 0 es ++ [(a, e)] := by
    rw [placements_append, ← hinv.last]
    rfl
  constructor
  · show nextLast L s = cursor 0 (es ++ [e])
    rw [cursor_append, ← hinv.last]
    rfl
  · intro a' e' hmem hwin
    rw [hlast] at hwin
    rw [hpl, List.mem_append, List.mem_singleton] at hmem
    rcases hmem with hmem | hmem
    · -- an older record: the window moved on, and this call stored past it
      obtain ⟨-, -, -, hend⟩ := mem_placements (Nat.zero_mod 8) hwf hmem
      rw [← hinv.last] at hend
      refine (hinv.records a' e' hmem (Nat.le_trans hB hwin)).congr fun k hk => log_apply he hL8 ?_
      intro y hy1 hy2
      exact hshow (a' + k) (by omega) (by omega) y hy1 hy2
    · -- this record, where `allocate_trace_record` put it
      obtain ⟨rfl, rfl⟩ := Prod.mk.inj hmem
      intro v i hi hroom hv
      refine @decodeAt_writeRecord sigOf e' (write t.traceLog (L % maxTrace) (toListLE 8 0))
        (a % maxTrace) he v i hi hroom fun k hk => ?_
      rw [hv k hk]
      show writeRecord _ (a % maxTrace) _ ((a + k) % maxTrace) = writeRecord _ (a % maxTrace) _ _
      congr 1
      unfold tracePageSize at hstart
      rw [hM]
      omega
  · intro q hq hwin
    rw [hlast] at hwin
    rw [crossings_append, ← hinv.last, List.mem_append] at hq
    rcases hq with hq | hq
    · -- an older cleared `tp`
      obtain ⟨-, -, hend⟩ := mem_crossings (Nat.zero_mod 8) hwf hq
      rw [← hinv.last] at hend
      intro k hk
      rw [log_apply he hL8 fun y hy1 hy2 => hshow (q + k) (by omega) (by omega) y hy1 hy2]
      exact hinv.pads q hq (Nat.le_trans hB hwin) k hk
    · -- the `tp` this call cleared: the record went on to the next page
      rw [crossings_cons, show crossings _ [] = [] from rfl, List.append_nil] at hq
      split_ifs at hq with hcross
      · cases hq
      rw [List.mem_singleton] at hq
      subst hq
      rcases nextLast_cases L s hsp with ⟨h1, -⟩ | ⟨h1, h2, -⟩
      · exact absurd h1 hcross
      intro k hk
      unfold tracePageSize at h1 h2 hstart
      show writeRecord (write t.traceLog (L % maxTrace) (toListLE 8 0)) (a % maxTrace) e
        ((L + k) % maxTrace) = 0
      rw [writeRecord_apply_of_not_mem he (by rw [hM]; omega),
        show (L + k) % maxTrace = L % maxTrace + k by rw [hM]; omega,
        write_apply_add (by simpa using hk), toListLE_zero, List.getD_eq_getElem?_getD,
        List.getElem?_replicate, if_pos hk, Option.getD_some]
  · intro x hx1 hx2
    rw [hlast] at hx1
    rw [log_apply he hL8 fun y _ hy2 => by
      have hy : y < nextLast L s := hy2
      rw [hM] at hx2 ⊢
      omega]
    exact hinv.fresh x (Nat.le_trans (le_nextLast L s |> Nat.le_trans (Nat.le_add_right L s)) hx1) hx2

/-- **The run lemma.**  Every run of well-formed records keeps the invariant. -/
theorem inv_run (es : List Entry) (hwf : ∀ e ∈ es, e.WellFormed sigOf) :
    Inv sigOf (es.foldl TraceLog.log TraceLog.init) es := by
  induction es using List.reverseRecOn with
  | nil => exact inv_init
  | append_singleton es e ih =>
      have hes : ∀ e' ∈ es, e'.WellFormed sigOf := fun e' h => hwf e' (List.mem_append_left _ h)
      rw [List.foldl_append, List.foldl_cons, List.foldl_nil]
      exact (ih hes).log hes (hwf e (List.mem_append_right _ List.mem_cons_self))

/-- After the first record, `trace_record_last` is never at the start of a page. -/
theorem cursor_mod_page {p : ℕ} (hp : p = 0 ∨ p % tracePageSize ≠ 0) :
    ∀ {es : List Entry}, (∀ e ∈ es, e.WellFormed sigOf) →
      cursor p es = 0 ∨ cursor p es % tracePageSize ≠ 0 := by
  intro es
  induction es generalizing p with
  | nil => intro _; exact hp
  | cons e es ih =>
      intro hwf
      obtain ⟨hs8, hs32, hsp⟩ := reserved_spec (hwf e List.mem_cons_self)
      refine ih ?_ fun e' he' => hwf e' (List.mem_cons_of_mem e he')
      right
      rcases nextLast_cases p e.reserved hsp with ⟨h1, h2⟩ | ⟨h1, h2, h3⟩ <;>
        · rw [h1]
          unfold tracePageSize at *
          omega

theorem placements_map_snd (p : ℕ) (es : List Entry) : (placements p es).map Prod.snd = es := by
  induction es generalizing p with
  | nil => rfl
  | cons e es ih => rw [placements_cons, List.map_cons, ih]

/-! ## The walk of the decoder -/

theorem decodeLoop_of_le {v : Mem} {last fuel i : ℕ} (h : last ≤ i) :
    decodeLoop sigOf v last fuel i = some [] := by
  -- both fuel cases unfold, by definition, to the loop's test
  cases fuel <;> exact if_neg (Nat.not_lt.mpr h)

theorem decodeLoop_step {v : Mem} {last fuel i : ℕ} {tr : Option Trace} {j : ℕ} (h : i < last)
    (hd : decodeAt sigOf v i = some (tr, j)) :
    decodeLoop sigOf v last (fuel + 1) i = (tr.toList ++ ·) <$> decodeLoop sigOf v last fuel j := by
  exact (if_pos h).trans (by rw [hd])

/-- A cleared `tp`, or a zero page: the decoder goes on to the next page. -/
theorem decodeAt_of_zero {v : Mem} {i : ℕ} (hroom : i + 32 ≤ maxTrace) (hz : ∀ k < 8, v (i + k) = 0) :
    decodeAt sigOf v i = some (none, alignUp (i + 8) tracePageSize) := by
  have hread : read v i 8 = List.replicate 8 0 := by
    have h := @read_eq v i (List.replicate 8 0) fun k hk => by
      rw [List.getElem_replicate]
      exact hz k (by simpa using hk)
    rwa [List.length_replicate] at h
  unfold decodeAt
  rw [if_neg (by omega), hread]
  rfl

section Window

variable {t : TraceLog}

/-- The byte the rotated buffer shows at the window's position of `x`. -/
theorem rotatedLog_apply {x : ℕ} (hx : alignUp t.traceRecordLast tracePageSize ≤ x + maxTrace) :
    rotatedLog t (x + maxTrace - alignUp t.traceRecordLast tracePageSize) = t.traceLog (x % maxTrace) := by
  unfold rotatedLog
  congr 1
  unfold maxTrace alignUp alignDown tracePageSize at *
  omega

theorem rotatedLast_eq :
    rotatedLast t = t.traceRecordLast + maxTrace - alignUp t.traceRecordLast tracePageSize := by
  unfold rotatedLast maxTrace alignUp alignDown tracePageSize
  omega

/-- A record of the window, read at its place in the rotated buffer. -/
theorem decodeAt_rotated_record {a : ℕ} {e : Entry}
    (hwin : alignUp t.traceRecordLast tracePageSize ≤ a + maxTrace) (ha : a % 8 = 0)
    (hend : a + e.reserved ≤ t.traceRecordLast) (hrec : RecordAt sigOf t.traceLog a e) :
    decodeAt sigOf (rotatedLog t) (a + maxTrace - alignUp t.traceRecordLast tracePageSize) =
      some (some e.trace, a + e.reserved + maxTrace - alignUp t.traceRecordLast tracePageSize) := by
  have hB := le_alignUp (n := t.traceRecordLast) (show 0 < tracePageSize by decide)
  have hB8 : alignUp t.traceRecordLast tracePageSize % 8 = 0 := by
    unfold alignUp alignDown tracePageSize
    omega
  have hM : maxTrace = 4096 * 1024 := rfl
  rw [hrec _ _ (by rw [hM] at *; omega) (by omega) fun k hk => ?_]
  · congr 2
    omega
  · rw [show a + maxTrace - alignUp t.traceRecordLast tracePageSize + k =
      (a + k) + maxTrace - alignUp t.traceRecordLast tracePageSize by omega,
      rotatedLog_apply (by omega)]

/-- A cleared `tp` of the window, read at its place in the rotated buffer. -/
theorem decodeAt_rotated_pad {q : ℕ} (hwin : alignUp t.traceRecordLast tracePageSize ≤ q + maxTrace)
    (hroom : q + 32 ≤ t.traceRecordLast) (hpad : PadAt t.traceLog q) :
    decodeAt sigOf (rotatedLog t) (q + maxTrace - alignUp t.traceRecordLast tracePageSize) =
      some (none, alignUp (q + maxTrace - alignUp t.traceRecordLast tracePageSize + 8) tracePageSize) := by
  have hB := le_alignUp (n := t.traceRecordLast) (show 0 < tracePageSize by decide)
  refine decodeAt_of_zero (by omega) fun k hk => ?_
  rw [show q + maxTrace - alignUp t.traceRecordLast tracePageSize + k =
    (q + k) + maxTrace - alignUp t.traceRecordLast tracePageSize by omega, rotatedLog_apply (by omega)]
  exact hpad k hk

end Window

section Walk

variable {t : TraceLog}

/-- **The walk from a cursor in the window.**  From the place of `trace_record_last = p` in the
rotated buffer, with the records logged from `p` on intact and the cleared `tp`s of their page
crossings in place, the decoder yields their traces, a record or a padded page a turn. -/
theorem walk : ∀ (es : List Entry) (p fuel : ℕ), (∀ e ∈ es, e.WellFormed sigOf) →
    cursor p es = t.traceRecordLast → p % 8 = 0 →
    alignUp t.traceRecordLast tracePageSize ≤ p + maxTrace →
    (∀ a e, (a, e) ∈ placements p es → RecordAt sigOf t.traceLog a e) →
    (∀ q ∈ crossings p es, PadAt t.traceLog q) → t.traceRecordLast - p ≤ fuel →
    decodeLoop sigOf (rotatedLog t) (rotatedLast t) fuel
        (p + maxTrace - alignUp t.traceRecordLast tracePageSize) = some (es.map Entry.trace)
  | [], p, fuel, _, hcur, _, _, _, _, _ => by
      rw [decodeLoop_of_le (by rw [rotatedLast_eq, ← hcur]; exact Nat.le_refl _)]
      rfl
  | e :: es, p, fuel, hwf, hcur, hp, hwin, hrec, hpad, hfuel => by
      have he := hwf e List.mem_cons_self
      have hstart := start_spec hp he
      obtain ⟨hs8, hs32, hsp⟩ := reserved_spec he
      have hcur' : cursor (nextLast p e.reserved) es = t.traceRecordLast := hcur
      have hle := le_cursor (nextLast p e.reserved) es
      have hhead : RecordAt sigOf t.traceLog (nextLast p e.reserved - e.reserved) e :=
        hrec _ _ List.mem_cons_self
      have hlast := rotatedLast_eq (t := t)
      -- the rest of the run, from the cursor after this record
      have hrest := fun f (hf : t.traceRecordLast - nextLast p e.reserved ≤ f) =>
        walk es (nextLast p e.reserved) f (fun e' h => hwf e' (List.mem_cons_of_mem e h)) hcur'
          (by omega) (by omega) (fun a e' h => hrec a e' (List.mem_cons_of_mem _ h))
          (fun q h => hpad q (by rw [crossings_cons]; exact List.mem_append_right _ h)) hf
      rcases nextLast_cases p e.reserved hsp with ⟨h1, h2⟩ | ⟨h1, h2, h3⟩
      · -- the record starts at the cursor
        obtain ⟨f, rfl⟩ : ∃ f, fuel = f + 1 := ⟨fuel - 1, by omega⟩
        rw [h1, Nat.add_sub_cancel] at hhead
        rw [decodeLoop_step (by omega) (decodeAt_rotated_record (by omega) hp (by omega) hhead),
          show p + e.reserved = nextLast p e.reserved from h1.symm, hrest f (by omega)]
        rfl
      · -- a cleared `tp` at the cursor, then the record at the start of the next page
        obtain ⟨f, rfl⟩ : ∃ f, fuel = f + 2 := ⟨fuel - 2, by unfold tracePageSize at h1 h2; omega⟩
        have hcross : p ∈ crossings p (e :: es) := by
          rw [crossings_cons, if_neg (by unfold tracePageSize at h1 h2; omega)]
          exact List.mem_append_left _ (List.mem_singleton_self p)
        have hpage : alignUp (p + maxTrace - alignUp t.traceRecordLast tracePageSize + 8) tracePageSize =
            nextLast p e.reserved - e.reserved + maxTrace - alignUp t.traceRecordLast tracePageSize := by
          rw [h1]
          unfold maxTrace alignUp alignDown tracePageSize at *
          omega
        rw [decodeLoop_step (by omega) (decodeAt_rotated_pad (by omega) (by omega) (hpad p hcross)),
          hpage, decodeLoop_step (by omega) (decodeAt_rotated_record (by omega) hstart.2.2.1
            (by omega) hhead), Nat.sub_add_cancel (by omega), hrest f (by omega)]
        rfl

/-- **The first page of a wrapped ring.**  Once the window starts past `p`, the decoder's walk
from the window's start yields the records logged from `p` that start in the window: the first
of them starts the window's first page. -/
theorem walk_lead : ∀ (es : List Entry) (p fuel : ℕ), (∀ e ∈ es, e.WellFormed sigOf) →
    cursor p es = t.traceRecordLast → p % 8 = 0 →
    p + maxTrace < alignUp t.traceRecordLast tracePageSize →
    (∀ a e, (a, e) ∈ placements p es → alignUp t.traceRecordLast tracePageSize ≤ a + maxTrace →
      RecordAt sigOf t.traceLog a e) →
    (∀ q ∈ crossings p es, alignUp t.traceRecordLast tracePageSize ≤ q + maxTrace →
      PadAt t.traceLog q) →
    t.traceRecordLast + maxTrace - alignUp t.traceRecordLast tracePageSize ≤ fuel →
    decodeLoop sigOf (rotatedLog t) (rotatedLast t) fuel 0 =
      some ((((placements p es).filter fun r =>
        alignUp t.traceRecordLast tracePageSize ≤ r.1 + maxTrace).map Prod.snd).map Entry.trace)
  | [], p, _, _, hcur, _, hwin, _, _, _ => by
      have hB : alignUp t.traceRecordLast tracePageSize ≤ t.traceRecordLast + 4095 := by
        unfold alignUp alignDown tracePageSize
        omega
      change p = t.traceRecordLast at hcur
      unfold maxTrace alignUp alignDown tracePageSize at *
      omega
  | e :: es, p, fuel, hwf, hcur, hp, hwin, hrec, hpad, hfuel => by
      have he := hwf e List.mem_cons_self
      have hes := fun e' h => hwf e' (List.mem_cons_of_mem e h)
      have hstart := start_spec hp he
      obtain ⟨hs8, hs32, hsp⟩ := reserved_spec he
      have hcur' : cursor (nextLast p e.reserved) es = t.traceRecordLast := hcur
      have hle := le_cursor (nextLast p e.reserved) es
      have hlast := rotatedLast_eq (t := t)
      have hBpage : alignUp t.traceRecordLast tracePageSize % tracePageSize = 0 := by
        unfold alignUp alignDown tracePageSize
        omega
      rw [placements_cons, List.filter_cons]
      by_cases hfirst : alignUp t.traceRecordLast tracePageSize ≤ nextLast p e.reserved - e.reserved + maxTrace
      · -- the first record of the window: it went on to the page that starts the window
        have hstart0 : nextLast p e.reserved - e.reserved + maxTrace -
            alignUp t.traceRecordLast tracePageSize = 0 := by
          rcases nextLast_cases p e.reserved hsp with ⟨h1, -⟩ | ⟨h1, -, -⟩
          · omega
          · unfold maxTrace tracePageSize at *
            omega
        -- every later record is in the window too
        have hall : ((placements (nextLast p e.reserved) es).filter fun r =>
            alignUp t.traceRecordLast tracePageSize ≤ r.1 + maxTrace) = placements (nextLast p e.reserved) es := by
          refine List.filter_eq_self.mpr fun r hr => ?_
          obtain ⟨h1, -⟩ := mem_placements (by omega) hes (a := r.1) (e := r.2) hr
          exact decide_eq_true (by omega)
        obtain ⟨f, rfl⟩ : ∃ f, fuel = f + 1 := ⟨fuel - 1, by omega⟩
        have hd := @decodeAt_rotated_record sigOf t _ _ hfirst hstart.2.2.1 (by omega)
          (hrec _ _ List.mem_cons_self hfirst)
        rw [hstart0] at hd
        rw [if_pos (decide_eq_true hfirst), decodeLoop_step (by omega) hd, hall, List.map_cons,
          placements_map_snd,
          show nextLast p e.reserved - e.reserved + e.reserved + maxTrace -
            alignUp t.traceRecordLast tracePageSize =
            nextLast p e.reserved + maxTrace - alignUp t.traceRecordLast tracePageSize by omega,
          walk es _ f hes hcur' (by omega) (by omega)
            (fun a e' h => hrec a e' (List.mem_cons_of_mem _ h) (by
              obtain ⟨h1, -⟩ := mem_placements (by omega) hes h
              omega))
            (fun q h => hpad q (by rw [crossings_cons]; exact List.mem_append_right _ h) (by
              obtain ⟨h1, -⟩ := mem_crossings (by omega) hes h
              omega))
            (by omega)]
        rfl
      · -- a record before the window; so is its end, which lies in the same page
        rw [if_neg (by simpa using hfirst)]
        exact walk_lead es _ fuel hes hcur' (by omega)
          (by unfold maxTrace tracePageSize at *; omega)
          (fun a e' h => hrec a e' (List.mem_cons_of_mem _ h))
          (fun q h => hpad q (by rw [crossings_cons]; exact List.mem_append_right _ h)) hfuel

/-- **The zero pages of a ring that has not wrapped.**  Before the first record the rotated
buffer shows `trace_log` past the cursor, still zero: the decoder skips it a page a turn, then
walks the run from its start. -/
theorem walk_zero {es : List Entry} (hinv : Inv sigOf t es) (hwf : ∀ e ∈ es, e.WellFormed sigOf)
    (n fuel : ℕ) (hroom : alignUp t.traceRecordLast tracePageSize + n * tracePageSize ≤ maxTrace)
    (hfuel : n + t.traceRecordLast ≤ fuel) :
    decodeLoop sigOf (rotatedLog t) (rotatedLast t) fuel
      (maxTrace - alignUp t.traceRecordLast tracePageSize - n * tracePageSize) =
        some (es.map Entry.trace) := by
  have hB := le_alignUp (n := t.traceRecordLast) (show 0 < tracePageSize by decide)
  -- induction on the zero pages still to skip
  induction n generalizing fuel with
  | zero =>
      rw [Nat.zero_mul, Nat.sub_zero,
        show maxTrace - alignUp t.traceRecordLast tracePageSize =
          0 + maxTrace - alignUp t.traceRecordLast tracePageSize by omega]
      exact walk es 0 fuel hwf hinv.last.symm rfl (by omega)
        (fun a e h => hinv.records a e h (by omega)) (fun q h => hinv.pads q h (by omega)) (by omega)
  | succ n ih =>
      obtain ⟨f, rfl⟩ : ∃ f, fuel = f + 1 := ⟨fuel - 1, by omega⟩
      have hL : t.traceRecordLast = 0 ∨ t.traceRecordLast % tracePageSize ≠ 0 :=
        hinv.last ▸ cursor_mod_page (Or.inl rfl) hwf
      have hlast := rotatedLast_eq (t := t)
      -- the page shows `trace_log` past the cursor: the ring has not wrapped, so the rotation is
      -- by the page after the cursor itself
      have hzero : ∀ k < 8, rotatedLog t (maxTrace - alignUp t.traceRecordLast tracePageSize -
          (n + 1) * tracePageSize + k) = 0 := by
        intro k hk
        have hrot : (maxTrace - alignUp t.traceRecordLast tracePageSize - (n + 1) * tracePageSize + k +
            alignUp (t.traceRecordLast % maxTrace) tracePageSize) % maxTrace =
            maxTrace - (n + 1) * tracePageSize + k := by
          unfold maxTrace alignUp alignDown tracePageSize at *
          omega
        unfold rotatedLog
        rw [hrot]
        exact hinv.fresh _ (by unfold maxTrace tracePageSize at *; omega)
          (by unfold maxTrace tracePageSize at *; omega)
      have hnext : alignUp (maxTrace - alignUp t.traceRecordLast tracePageSize - (n + 1) * tracePageSize + 8)
          tracePageSize = maxTrace - alignUp t.traceRecordLast tracePageSize - n * tracePageSize := by
        unfold maxTrace alignUp alignDown tracePageSize at *
        omega
      rw [decodeLoop_step (by rw [hlast]; unfold tracePageSize at *; omega)
        (decodeAt_of_zero (by unfold maxTrace tracePageSize at *; omega) hzero), hnext,
        Option.toList_none]
      simp only [List.nil_append, id_map']
      exact ih f (by rw [Nat.succ_mul] at hroom; omega) (by omega)

/-- Each record of the window is read back at its place in the rotated buffer. -/
theorem decodeAt_window {es : List Entry} (hinv : Inv sigOf t es) (hwf : ∀ e ∈ es, e.WellFormed sigOf)
    {a : ℕ} {e : Entry} (hmem : (a, e) ∈ placements 0 es)
    (hwin : alignUp (cursor 0 es) tracePageSize ≤ a + maxTrace) :
    decodeAt sigOf (rotatedLog t) (a + maxTrace - alignUp (cursor 0 es) tracePageSize) =
      some (some e.trace, a + maxTrace - alignUp (cursor 0 es) tracePageSize + e.reserved) := by
  obtain ⟨-, ha8, -, hend⟩ := mem_placements (Nat.zero_mod 8) hwf hmem
  rw [← hinv.last] at hwin hend ⊢
  rw [decodeAt_rotated_record hwin ha8 hend (hinv.records a e hmem hwin)]
  congr 2
  omega

/-- `all_traces` yields the window's records.  A ring that has not wrapped shows its zero pages
first; one that has wrapped starts at its first surviving record. -/
theorem allTraces_of_inv {es : List Entry} (hinv : Inv sigOf t es) (hwf : ∀ e ∈ es, e.WellFormed sigOf) :
    allTraces sigOf t = some ((survivors es).map Entry.trace) := by
  have hB := le_alignUp (n := t.traceRecordLast) (show 0 < tracePageSize by decide)
  unfold allTraces survivors
  rw [← hinv.last]
  by_cases hnw : alignUp t.traceRecordLast tracePageSize ≤ maxTrace
  · case pos =>
      rw [List.filter_eq_self.mpr fun r _ => by simp only [decide_eq_true_eq]; omega,
        placements_map_snd]
      -- the zero pages fill the buffer up to the page after the cursor
      have hsub : (maxTrace - alignUp t.traceRecordLast tracePageSize) / tracePageSize * tracePageSize =
          maxTrace - alignUp t.traceRecordLast tracePageSize :=
        Nat.div_mul_cancel (Nat.dvd_sub (Nat.dvd_mul_right _ _) (Nat.dvd_mul_left _ _))
      have hpages := walk_zero hinv hwf ((maxTrace - alignUp t.traceRecordLast tracePageSize) /
          tracePageSize) maxTrace (by omega)
        (by have := Nat.div_le_self (maxTrace - alignUp t.traceRecordLast tracePageSize) tracePageSize
            omega)
      rwa [hsub, Nat.sub_self] at hpages
  · case neg =>
      exact walk_lead es 0 maxTrace hwf hinv.last.symm rfl (by omega) hinv.records hinv.pads
        (by omega)

end Walk

end Run

/-! ## The round trip -/

/-- **The trace ring reads back.**  For every run of `log` calls from the empty buffer, of
tracepoints with at most eight arguments: each record of the window is read back at its place in
the buffer `all_traces` rotates, the decoder moving on by exactly the bytes
`allocate_trace_record` reserved for it; and `all_traces` yields the traces of the window's
records, in the order they were logged. -/
theorem trace_ring_round_trip (sigOf : UInt64 → UInt64) (es : List Entry)
    (hwf : ∀ e ∈ es, e.WellFormed sigOf) :
    (∀ a e, (a, e) ∈ placements 0 es → alignUp (cursor 0 es) tracePageSize ≤ a + maxTrace →
      decodeAt sigOf (rotatedLog (es.foldl TraceLog.log TraceLog.init))
          (a + maxTrace - alignUp (cursor 0 es) tracePageSize) =
        some (some e.trace, a + maxTrace - alignUp (cursor 0 es) tracePageSize + e.reserved)) ∧
      allTraces sigOf (es.foldl TraceLog.log TraceLog.init) = some ((survivors es).map Entry.trace) :=
  ⟨fun _ _ hmem hwin => decodeAt_window (inv_run es hwf) hwf hmem hwin,
    allTraces_of_inv (inv_run es hwf) hwf⟩

/-- A record of a tracepoint with one `u8` argument. -/
def oneByte : Entry := ⟨1, 0, 0, 0, none, [.scalar .u8 7]⟩

theorem trace_ring_round_trip_one_byte :
    (∀ e ∈ [oneByte], e.WellFormed fun _ => signatureHelper [.scalar .u8]) ∧
      allTraces (fun _ => signatureHelper [.scalar .u8]) ([oneByte].foldl TraceLog.log TraceLog.init) =
        some ((survivors [oneByte]).map Entry.trace) := by
  have hwf : ∀ e ∈ [oneByte], e.WellFormed fun _ => signatureHelper [.scalar .u8] := by
    intro e he
    rw [List.mem_singleton] at he
    subst he
    exact ⟨by decide, rfl, by decide, fun _ h => by cases h⟩
  exact ⟨hwf, (trace_ring_round_trip _ [oneByte] hwf).2⟩

/-- A record of a tracepoint with nine `u8` arguments. -/
def nineBytes : Entry := ⟨1, 0, 0, 0, none, List.replicate 9 (.scalar .u8 7)⟩

/-- `signature_helper` shifts the ninth argument's character out of the `u64`: the decoder reads
eight arguments and moves on after `40` of the `48` bytes `allocate_trace_record` reserved. -/
theorem trace_record_nine_arguments :
    nineBytes.reserved = 48 ∧
      decodeAt (fun _ => signatureHelper (nineBytes.args.map Arg.type))
          (TraceLog.init.log nineBytes).traceLog 0 =
        some (some ⟨1, 0, 0, 0xffffffff, List.replicate 8 (.scalar .u8 7), none⟩, 40) := by
  decide

end Osv.Core
