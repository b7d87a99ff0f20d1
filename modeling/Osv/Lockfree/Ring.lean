import Osv.Lib.Queue
import Osv.Lib.Simulation

/-!
# Lock-free rings

`include/lockfree/ring.hh` has two rings of `MaxSize` cells indexed by free-running 32-bit
counters: `ring_spsc`, for one producer and one consumer, and `ring_mpsc`, for many producers.

## `ring_spsc`

`push` writes cell `_end % MaxSize` and increments `_end`, refusing when `_end - _begin` (a
wrapping difference) has reached `MaxSize`; `pop` reads cell `_begin % MaxSize` and increments
`_begin`, refusing when `_begin >= _end`.

**A bounded FIFO while the counters do not wrap.**  Under the abstraction `contents` (the cells
from `_begin` to `_end`), each call answers as `Fifo.call MaxSize` does, for every run with
fewer than `2 ^ 32` pushes (`RingSpsc.run_eq_fifo`).

**Not past the wrap.**  `pop`'s test compares the counters themselves, not their difference:
once `_end` has wrapped to `0` while `_begin` has not, the ring holds an element and `pop`
refuses it.  After `2 ^ 32` pushes and pops, the last pop fails where a FIFO returns the
element (`ringSpsc_pop_fails_after_wrap`).
-/

namespace Osv.Lockfree

open Simulation

variable {α : Type*} {maxSize : ℕ} [NeZero maxSize]

/-! ### 32-bit counters -/

theorem toNat_ofNat_of_lt {k : ℕ} (hk : k < 2 ^ 32) : (UInt32.ofNat k).toNat = k :=
  UInt32.toNat_ofNat_of_lt' (by simpa [UInt32.size] using hk)

theorem ofNat_succ (k : ℕ) : UInt32.ofNat k + 1 = UInt32.ofNat (k + 1) := by
  rw [UInt32.ofNat_add k 1, UInt32.ofNat_one]

/-- A counter below `2 ^ 32 - 1` steps up without wrapping. -/
theorem toNat_succ {u : UInt32} (h : u.toNat + 1 < 2 ^ 32) : (u + 1).toNat = u.toNat + 1 := by
  rw [UInt32.toNat_add, UInt32.toNat_one, Nat.mod_eq_of_lt h]

theorem toNat_ofNat_sub_one {k : ℕ} (hk : k < 2 ^ 32) (hpos : 1 ≤ k) :
    (UInt32.ofNat k - 1).toNat = k - 1 := by
  have hle : (1 : UInt32) ≤ UInt32.ofNat k := by
    rw [UInt32.le_iff_toNat_le, toNat_ofNat_of_lt hk, UInt32.toNat_one]
    exact hpos
  rw [UInt32.toNat_sub_of_le _ _ hle, toNat_ofNat_of_lt hk, UInt32.toNat_one]

/-- A `ring_spsc<T, MaxSize>`. -/
structure RingSpsc (α : Type*) (maxSize : ℕ) where
  /-- `_begin`: how many elements have been popped, modulo `2 ^ 32`. -/
  beginIdx : UInt32
  /-- `_end`: how many elements have been pushed, modulo `2 ^ 32`. -/
  endIdx : UInt32
  /-- `_ring` -/
  ring : Fin maxSize → α

namespace RingSpsc

/-- The constructor: both counters at `0`, the cells as they are. -/
def init (ring : Fin maxSize → α) : RingSpsc α maxSize := ⟨0, 0, ring⟩

/-- `push(element)`. -/
def push (r : RingSpsc α maxSize) (element : α) : Bool × RingSpsc α maxSize :=
  if maxSize ≤ (r.endIdx - r.beginIdx).toNat then (false, r)
  else
    (true, { r with ring := Function.update r.ring (Ring.slot maxSize r.endIdx.toNat) element,
                    endIdx := r.endIdx + 1 })

/-- `pop(element)`: the element popped, or `none` for `false`. -/
def pop (r : RingSpsc α maxSize) : Option α × RingSpsc α maxSize :=
  if r.endIdx ≤ r.beginIdx then (none, r)
  else (some (r.ring (Ring.slot maxSize r.beginIdx.toNat)), { r with beginIdx := r.beginIdx + 1 })

/-- `size()`. -/
def size (r : RingSpsc α maxSize) : UInt32 := r.endIdx - r.beginIdx

/-- A call of the ring, as a machine over queue calls. -/
def call (r : RingSpsc α maxSize) : Fifo.Op α → Fifo.Result α × RingSpsc α maxSize
  | .push a => (.pushed (r.push a).1, (r.push a).2)
  | .pop => (.popped r.pop.1, r.pop.2)

/-- The queue the ring holds: the cells from `_begin` on, `size()` of them. -/
def contents (r : RingSpsc α maxSize) : List α :=
  Ring.window r.ring r.beginIdx.toNat r.size.toNat

theorem push_of_full {r : RingSpsc α maxSize} {a : α} (h : maxSize ≤ r.size.toNat) :
    r.push a = (false, r) :=
  if_pos h

theorem push_of_lt {r : RingSpsc α maxSize} {a : α} (h : r.size.toNat < maxSize) :
    r.push a = (true, { r with ring := Function.update r.ring (Ring.slot maxSize r.endIdx.toNat) a,
                               endIdx := r.endIdx + 1 }) :=
  if_neg (Nat.not_le.mpr h)

theorem pop_of_le {r : RingSpsc α maxSize} (h : r.endIdx ≤ r.beginIdx) : r.pop = (none, r) :=
  if_pos h

theorem pop_of_lt {r : RingSpsc α maxSize} (h : r.beginIdx < r.endIdx) :
    r.pop = (some (r.ring (Ring.slot maxSize r.beginIdx.toNat)), { r with beginIdx := r.beginIdx + 1 }) :=
  if_neg (UInt32.not_le.mpr h)

/-! ### The ring as a FIFO -/

/-- The ring holds the queue `q`, `_begin` has not passed `_end`, and `budget` more pushes do
not make `_end` wrap. -/
def Holds (budget : ℕ) (r : RingSpsc α maxSize) (q : List α) : Prop :=
  r.beginIdx ≤ r.endIdx ∧ r.endIdx.toNat + budget < 2 ^ 32 ∧ r.size.toNat ≤ maxSize ∧
    q = r.contents

omit [NeZero maxSize] in
theorem size_toNat {r : RingSpsc α maxSize} (h : r.beginIdx ≤ r.endIdx) :
    r.size.toNat = r.endIdx.toNat - r.beginIdx.toNat :=
  UInt32.toNat_sub_of_le _ _ h

/-- The ring after a successful push of `a`. -/
theorem push_holds {k : ℕ} {r : RingSpsc α maxSize} {q : List α} (a : α) (h : Holds (k + 1) r q) :
    (r.call (.push a)).1 = (Fifo.call maxSize q (.push a)).1 ∧
      Holds k (r.call (.push a)).2 (Fifo.call maxSize q (.push a)).2 := by
  obtain ⟨hle, hbudget, hsize, rfl⟩ := h
  have hlen : r.contents.length = r.size.toNat := Ring.window_length _ _ _
  by_cases hfull : maxSize ≤ r.size.toNat
  · -- a full ring refuses, as a full queue does
    have hc : r.call (.push a) = (.pushed false, r) := by rw [call, push_of_full hfull]
    have hf : Fifo.call maxSize r.contents (.push a) = (.pushed false, r.contents) :=
      if_neg (by omega)
    rw [hc, hf]
    refine ⟨rfl, ?_⟩
    show Holds k r r.contents
    exact ⟨hle, by omega, hsize, rfl⟩
  · have hlt : r.size.toNat < maxSize := Nat.lt_of_not_le hfull
    have hsize' := size_toNat hle
    have hle₀ : r.beginIdx.toNat ≤ r.endIdx.toNat := UInt32.le_iff_toNat_le.mp hle
    have hend : (r.endIdx + 1).toNat = r.endIdx.toNat + 1 := toNat_succ (by omega)
    have hle' : r.beginIdx ≤ r.endIdx + 1 := by
      rw [UInt32.le_iff_toNat_le, hend]
      exact Nat.le_succ_of_le hle
    have hsize'' : (r.endIdx + 1 - r.beginIdx).toNat = r.size.toNat + 1 := by
      rw [UInt32.toNat_sub_of_le _ _ hle', hend]
      omega
    have hslot : r.endIdx.toNat = r.beginIdx.toNat + r.size.toNat := by omega
    have hc : r.call (.push a) = (.pushed true,
        { r with ring := Function.update r.ring (Ring.slot maxSize r.endIdx.toNat) a,
                 endIdx := r.endIdx + 1 }) := by
      rw [call, push_of_lt hlt]
    have hf : Fifo.call maxSize r.contents (.push a) = (.pushed true, r.contents ++ [a]) :=
      if_pos (by omega)
    rw [hc, hf]
    refine ⟨rfl, ?_⟩
    show Holds k { r with ring := Function.update r.ring (Ring.slot maxSize r.endIdx.toNat) a,
                          endIdx := r.endIdx + 1 } (r.contents ++ [a])
    refine ⟨hle', ?_, ?_, ?_⟩
    · show (r.endIdx + 1).toNat + k < 2 ^ 32
      omega
    · show (r.endIdx + 1 - r.beginIdx).toNat ≤ maxSize
      omega
    · -- the new element goes into the cell just past the window
      show r.contents ++ [a] = Ring.window (Function.update r.ring (Ring.slot maxSize r.endIdx.toNat) a)
        r.beginIdx.toNat (r.endIdx + 1 - r.beginIdx).toNat
      rw [hsize'', hslot, Ring.window_push _ _ hlt]
      rfl

theorem pop_holds {k : ℕ} {r : RingSpsc α maxSize} {q : List α} (h : Holds k r q) :
    (r.call .pop).1 = (Fifo.call maxSize q .pop).1 ∧
      Holds k (r.call .pop).2 (Fifo.call maxSize q .pop).2 := by
  obtain ⟨hle, hbudget, hsize, rfl⟩ := h
  have hsize' := size_toNat hle
  by_cases hempty : r.endIdx ≤ r.beginIdx
  · -- equal counters: the ring and the queue are empty
    have hnil : r.contents = [] := by
      have hzero : r.size.toNat = 0 := by
        rw [hsize']
        exact Nat.sub_eq_zero_of_le hempty
      rw [contents, hzero, Ring.window_zero]
    have hc : r.call .pop = (.popped none, r) := by rw [call, pop_of_le hempty]
    rw [hc, hnil]
    exact ⟨rfl, hle, hbudget, hsize, hnil.symm⟩
  · have hlt : r.beginIdx < r.endIdx := UInt32.not_le.mp hempty
    have hlt' : r.beginIdx.toNat < r.endIdx.toNat := UInt32.lt_iff_toNat_lt.mp hlt
    have hbeg : (r.beginIdx + 1).toNat = r.beginIdx.toNat + 1 := toNat_succ (by omega)
    have hle' : r.beginIdx + 1 ≤ r.endIdx := by
      rw [UInt32.le_iff_toNat_le, hbeg]
      exact hlt'
    have hsize'' : (r.endIdx - (r.beginIdx + 1)).toNat = r.size.toNat - 1 := by
      rw [UInt32.toNat_sub_of_le _ _ hle', hbeg]
      omega
    -- the oldest element sits in the cell at `_begin`
    have hwin : r.contents = r.ring (Ring.slot maxSize r.beginIdx.toNat) ::
        Ring.window r.ring (r.beginIdx.toNat + 1) (r.size.toNat - 1) := by
      rw [contents, ← Ring.window_pop, Nat.sub_add_cancel (by omega)]
    have hc : r.call .pop = (.popped (some (r.ring (Ring.slot maxSize r.beginIdx.toNat))),
        { r with beginIdx := r.beginIdx + 1 }) := by
      rw [call, pop_of_lt hlt]
    rw [hc, hwin]
    refine ⟨rfl, ?_⟩
    show Holds k { r with beginIdx := r.beginIdx + 1 }
      (Ring.window r.ring (r.beginIdx.toNat + 1) (r.size.toNat - 1))
    refine ⟨hle', hbudget, ?_, ?_⟩
    · show (r.endIdx - (r.beginIdx + 1)).toNat ≤ maxSize
      omega
    · show _ = Ring.window r.ring (r.beginIdx + 1).toNat (r.endIdx - (r.beginIdx + 1)).toNat
      rw [hsize'', hbeg]

/-- The ring follows the FIFO for as many pushes as `_end` has left before it wraps. -/
theorem budgeted :
    Budgeted (@call α maxSize _) (Fifo.call maxSize) Fifo.Op.pushes Holds := by
  intro k r q op h
  cases op with
  | push a => exact push_holds a h
  | pop => exact pop_holds h

/-- **`ring_spsc` is a bounded FIFO queue while its counters do not wrap.**  On every run with
fewer than `2 ^ 32` pushes, from the constructed ring, every push and every pop answers as a
FIFO queue of capacity `MaxSize` does. -/
theorem run_eq_fifo (ring : Fin maxSize → α) (ops : List (Fifo.Op α))
    (hops : (ops.map Fifo.Op.pushes).sum < 2 ^ 32) :
    (run call (init ring) ops).1 = (run (Fifo.call maxSize) [] ops).1 := by
  refine (budgeted.run_eq ops 0 ?_).1
  refine ⟨UInt32.le_refl _, by simpa [init] using hops, by simp [init, size], ?_⟩
  simp [contents, init, size]

/-! ### What the ring holds, wrapped or not

`contents` reads `size()` cells from `_begin`, a wrapping difference, so it describes the ring
also after `_end` has wrapped: a successful push appends to it (`contents_push`), a successful
pop takes its front (`contents_pop`).  Once `_end` is behind `_begin` as numbers, `pop` refuses
(`pop_of_wrapped`) and pushes keep `_end` behind (`push_wrapped`). -/

/-- A successful push appends to the contents, across the wrap. -/
theorem contents_push {r : RingSpsc α maxSize} (a : α) (hlt : r.size.toNat < maxSize)
    (hdvd : maxSize ∣ 2 ^ 32) (hmax : maxSize < 2 ^ 32) :
    (r.push a).2.contents = r.contents ++ [a] ∧ (r.push a).2.size.toNat = r.size.toNat + 1 := by
  have hE := r.endIdx.toNat_lt
  have hB := r.beginIdx.toNat_lt
  have hsz : r.size.toNat = (2 ^ 32 - r.beginIdx.toNat + r.endIdx.toNat) % 2 ^ 32 :=
    UInt32.toNat_sub _ _
  have hsize : (r.endIdx + 1 - r.beginIdx).toNat = r.size.toNat + 1 := by
    rw [UInt32.toNat_sub, UInt32.toNat_add, UInt32.toNat_one]
    omega
  -- the cell at `_end` is the one just past the window
  have hslot : Ring.slot maxSize r.endIdx.toNat =
      Ring.slot maxSize (r.beginIdx.toNat + r.size.toNat) := by
    rw [← Ring.slot_mod hdvd (r.beginIdx.toNat + r.size.toNat)]
    congr 1
    omega
  rw [push_of_lt hlt]
  refine ⟨?_, hsize⟩
  show Ring.window _ r.beginIdx.toNat (r.endIdx + 1 - r.beginIdx).toNat = _
  rw [hsize, hslot, Ring.window_push _ _ hlt]
  rfl

/-- A successful pop takes the front of the contents. -/
theorem contents_pop {r : RingSpsc α maxSize} (hlt : r.beginIdx < r.endIdx) :
    r.contents = r.ring (Ring.slot maxSize r.beginIdx.toNat) :: r.pop.2.contents := by
  have hlt' := UInt32.lt_iff_toNat_lt.mp hlt
  have hE := r.endIdx.toNat_lt
  have hbeg : (r.beginIdx + 1).toNat = r.beginIdx.toNat + 1 := toNat_succ (by omega)
  have hsz := size_toNat (UInt32.le_of_lt hlt)
  have hsz' : (r.endIdx - (r.beginIdx + 1)).toNat = r.size.toNat - 1 := by
    rw [UInt32.toNat_sub_of_le _ _ (UInt32.le_iff_toNat_le.mpr (by omega)), hbeg]
    omega
  rw [pop_of_lt hlt]
  show Ring.window r.ring r.beginIdx.toNat r.size.toNat =
    _ :: Ring.window r.ring (r.beginIdx + 1).toNat (r.endIdx - (r.beginIdx + 1)).toNat
  rw [hsz', hbeg, ← Ring.window_pop, Nat.sub_add_cancel (by omega)]

theorem pop_of_wrapped {r : RingSpsc α maxSize} (h : r.endIdx < r.beginIdx) : r.pop = (none, r) :=
  pop_of_le (UInt32.le_of_lt h)

/-- **A push keeps `_end` behind `_begin`**: a push that `size()` admits leaves fewer than
`2 ^ 32` elements, so the counters cannot meet again by pushing. -/
theorem push_wrapped {r : RingSpsc α maxSize} (a : α) (h : r.endIdx < r.beginIdx)
    (hmax : maxSize < 2 ^ 32) :
    (r.push a).2.endIdx < (r.push a).2.beginIdx := by
  by_cases hfull : maxSize ≤ r.size.toNat
  · rw [push_of_full hfull]
    exact h
  · rw [push_of_lt (Nat.lt_of_not_le hfull)]
    have h' := UInt32.lt_iff_toNat_lt.mp h
    have hsz : r.size.toNat = (2 ^ 32 - r.beginIdx.toNat + r.endIdx.toNat) % 2 ^ 32 :=
      UInt32.toNat_sub _ _
    have hB := r.beginIdx.toNat_lt
    show r.endIdx + 1 < r.beginIdx
    rw [UInt32.lt_iff_toNat_lt, toNat_succ (by omega)]
    omega

/-! ### Past the wrap -/

/-- An empty ring of `free_objects_ring_size = 256` zeros, both counters at `k`. -/
def emptyAt (k : ℕ) : RingSpsc ℕ 256 := ⟨UInt32.ofNat k, UInt32.ofNat k, fun _ => 0⟩

/-- A push and a pop on an empty ring whose counters are below `2 ^ 32 - 1`. -/
theorem run_emptyAt {k : ℕ} (hk : k < 2 ^ 32 - 1) :
    run call (emptyAt k) [.push 0, .pop] =
      ([.pushed true, .popped (some 0)], emptyAt (k + 1)) := by
  have hk' : (UInt32.ofNat k).toNat = k := toNat_ofNat_of_lt (by omega)
  have hpush : (emptyAt k).push 0 = (true, ⟨UInt32.ofNat k, UInt32.ofNat k + 1, fun _ => 0⟩) := by
    rw [push_of_lt (by simp [emptyAt, size])]
    congr
    exact Function.update_eq_self _ _
  have hlt : UInt32.ofNat k < UInt32.ofNat k + 1 := by
    rw [UInt32.lt_iff_toNat_lt, toNat_succ (by omega)]
    exact Nat.lt_succ_self _
  have hpop : (⟨UInt32.ofNat k, UInt32.ofNat k + 1, fun _ => 0⟩ : RingSpsc ℕ 256).pop =
      (some 0, emptyAt (k + 1)) := by
    rw [pop_of_lt hlt, emptyAt, ofNat_succ]
  simp only [run_cons, run_nil, call, hpush, hpop]

/-- **`pop` refuses an element once `_end` has wrapped.**  After `2 ^ 32` pushes each followed
by a pop, on a ring of 256 cells, the last pop of the ring fails, where the FIFO queue returns
the element just pushed. -/
theorem ringSpsc_pop_fails_after_wrap :
    (run call (init fun _ => 0 : RingSpsc ℕ 256)
        (List.replicate (2 ^ 32) [.push 0, .pop]).flatten).1.getLast? = some (.popped none) ∧
      (run (Fifo.call 256) []
        (List.replicate (2 ^ 32) [.push 0, .pop]).flatten).1.getLast? = some (.popped (some 0)) := by
  have hsplit : (List.replicate (2 ^ 32) ([.push 0, .pop] : List (Fifo.Op ℕ))).flatten =
      (List.replicate (2 ^ 32 - 1) [.push 0, .pop]).flatten ++ [.push 0, .pop] := by
    conv_lhs => rw [show 2 ^ 32 = (2 ^ 32 - 1) + 1 from rfl, List.replicate_succ',
      List.flatten_append, List.flatten_singleton]
  have hring := run_iterate call emptyAt [.push 0, .pop]
    (fun _ => [.pushed true, .popped (some 0)]) (2 ^ 32 - 1) fun k hk => run_emptyAt hk
  have hfifo := run_iterate (Fifo.call 256) (fun _ => []) [.push 0, .pop]
    (fun _ => [.pushed true, .popped (some (0 : ℕ))]) (2 ^ 32 - 1) fun _ _ => rfl
  have hinit : (init fun _ => 0 : RingSpsc ℕ 256) = emptyAt 0 := rfl
  have hlast : (run call (emptyAt (2 ^ 32 - 1)) [.push 0, .pop]).1 = [.pushed true, .popped none] := by
    decide
  rw [hsplit, run_append, run_append, hinit, hring, hfifo, hlast]
  exact ⟨by simp, by simp [run_cons, Fifo.call]⟩

end RingSpsc

/-! ## `ring_mpsc`

Producers draw an index from `_insert_idx` with a `fetch_add` before they test for room, so a
producer that finds the ring full has used up its index: `push` returns it, and the caller is
to retry with `push_to(element, in_idx)`.  `push` returns `0` for success.  Here every call runs
alone, one of the interleavings the code allows.

**Failure can look like success.**  The index drawn is `0` again after `2 ^ 32` draws, so a
push that finds the ring full then returns the success code, and its element is in no cell
(`ringMpsc_push_reports_unstored`). -/

/-- A `ring_mpsc<T, MaxSize>`; a cell holding `_empty` is `none`. -/
structure RingMpsc (α : Type*) (maxSize : ℕ) where
  /-- `_insert_idx`: how many indices producers have drawn, modulo `2 ^ 32`. -/
  insertIdx : UInt32
  /-- `_begin` -/
  beginIdx : UInt32
  /-- `_end`: how many elements have been stored, modulo `2 ^ 32`. -/
  endIdx : UInt32
  /-- `_ring` -/
  ring : Fin maxSize → Option α

namespace RingMpsc

/-- The constructor: counters at `0`, every cell `_empty`. -/
def init : RingMpsc α maxSize := ⟨0, 0, 0, fun _ => none⟩

/-- Store `element` in the cell of index `inIdx` and count it in `_end`. -/
def store (r : RingMpsc α maxSize) (inIdx : UInt32) (element : α) : RingMpsc α maxSize :=
  { r with ring := Function.update r.ring (Ring.slot maxSize inIdx.toNat) (some element),
           endIdx := r.endIdx + 1 }

/-- `push(element)`: `0` on success, else the index drawn. -/
def push (r : RingMpsc α maxSize) (element : α) : UInt32 × RingMpsc α maxSize :=
  let inIdx := r.insertIdx
  let r' := { r with insertIdx := inIdx + 1 }
  if maxSize ≤ (inIdx - r.beginIdx).toNat then (inIdx, r') else (0, r'.store inIdx element)

/-- `push_to(element, in_idx)`. -/
def pushTo (r : RingMpsc α maxSize) (element : α) (inIdx : UInt32) : Bool × RingMpsc α maxSize :=
  if maxSize ≤ (inIdx - r.beginIdx).toNat then (false, r) else (true, r.store inIdx element)

/-- `pop(element)`: the element popped, or `none` for `false`. -/
def pop (r : RingMpsc α maxSize) : Option α × RingMpsc α maxSize :=
  if r.endIdx ≤ r.beginIdx then (none, r)
  else
    match r.ring (Ring.slot maxSize r.beginIdx.toNat) with
    | none => (none, r)
    | some element =>
        (some element,
          { r with ring := Function.update r.ring (Ring.slot maxSize r.beginIdx.toNat) none,
                   beginIdx := r.beginIdx + 1 })

/-- The calls of a `ring_mpsc`. -/
inductive Op (α : Type*) where
  | push (element : α)
  | pushTo (element : α) (inIdx : UInt32)
  | pop

/-- What a call answers. -/
inductive Result (α : Type*) where
  | pushed (ret : UInt32)
  | pushedTo (ok : Bool)
  | popped (element : Option α)

/-- A call of the ring, as a machine. -/
def call (r : RingMpsc α maxSize) : Op α → Result α × RingMpsc α maxSize
  | .push a => (.pushed (r.push a).1, (r.push a).2)
  | .pushTo a inIdx => (.pushedTo (r.pushTo a inIdx).1, (r.pushTo a inIdx).2)
  | .pop => (.popped r.pop.1, r.pop.2)

theorem push_of_full {r : RingMpsc α maxSize} {a : α}
    (h : maxSize ≤ (r.insertIdx - r.beginIdx).toNat) :
    r.push a = (r.insertIdx, { r with insertIdx := r.insertIdx + 1 }) :=
  if_pos h

theorem push_of_lt {r : RingMpsc α maxSize} {a : α}
    (h : (r.insertIdx - r.beginIdx).toNat < maxSize) :
    r.push a = (0, ({ r with insertIdx := r.insertIdx + 1 } : RingMpsc α maxSize).store r.insertIdx a) :=
  if_neg (Nat.not_le.mpr h)

theorem pop_of_some {r : RingMpsc α maxSize} {a : α} (hlt : r.beginIdx < r.endIdx)
    (ha : r.ring (Ring.slot maxSize r.beginIdx.toNat) = some a) :
    r.pop = (some a, { r with ring := Function.update r.ring (Ring.slot maxSize r.beginIdx.toNat) none,
                              beginIdx := r.beginIdx + 1 }) := by
  rw [pop, if_neg (UInt32.not_le.mpr hlt)]
  split
  · simp_all
  · simp_all

/-! ### A success that stored nothing -/

/-- Cells `1` to `j` (counted modulo `4096`) hold `2`, the others are `_empty`.  Irreducible,
so that no unification unfolds its test against the literal bound. -/
@[irreducible] def filled (j : ℕ) : Fin 4096 → Option ℕ :=
  fun i => if (i.val + 4095) % 4096 < j then some 2 else none

/-- One push and pop, then `j` more pushes: each stored its element. -/
def fillingAt (j : ℕ) : RingMpsc ℕ 4096 := ⟨UInt32.ofNat (1 + j), 1, UInt32.ofNat (1 + j), filled j⟩

/-- The ring filled up, `k` pushes ago: each of them drew an index and failed. -/
def fullAt (k : ℕ) : RingMpsc ℕ 4096 := ⟨UInt32.ofNat (4097 + k), 1, 4097, filled 4096⟩

theorem filled_succ {j : ℕ} (hj : j < 4096) :
    Function.update (filled j) (Ring.slot 4096 (1 + j)) (some 2) = filled (j + 1) := by
  funext i
  by_cases hi : i = Ring.slot 4096 (1 + j)
  · subst hi
    rw [Function.update_self, filled, if_pos]
    simp only [Ring.slot]
    omega
  · have hval : i.val ≠ (1 + j) % 4096 := fun h => hi (Fin.ext h)
    rw [Function.update_of_ne hi, filled, filled]
    congr 1
    apply propext
    omega

theorem run_fillingAt {j : ℕ} (hj : j < 4096) :
    run call (fillingAt j) [.push 2] = ([.pushed 0], fillingAt (j + 1)) := by
  have hdraw : (UInt32.ofNat (1 + j) - 1).toNat = j := by
    rw [toNat_ofNat_sub_one (by omega) (by omega)]
    omega
  have hroom : ((fillingAt j).insertIdx - (fillingAt j).beginIdx).toNat < 4096 := by
    show (UInt32.ofNat (1 + j) - 1).toNat < 4096
    rw [hdraw]
    exact hj
  have hpush : (fillingAt j).push 2 = (0, fillingAt (j + 1)) := by
    rw [push_of_lt hroom]
    show (0, (⟨UInt32.ofNat (1 + j) + 1, 1, UInt32.ofNat (1 + j) + 1,
      Function.update (filled j) (Ring.slot 4096 (UInt32.ofNat (1 + j)).toNat) (some 2)⟩ :
        RingMpsc ℕ 4096)) = _
    rw [toNat_ofNat_of_lt (by omega), filled_succ hj, ofNat_succ, Nat.add_assoc]
    rfl
  rw [run_cons, run_nil]
  simp only [call, hpush]

theorem run_fullAt {k : ℕ} (hk : k < 2 ^ 32 - 4097) :
    run call (fullAt k) [.push 2] = ([.pushed (UInt32.ofNat (4097 + k))], fullAt (k + 1)) := by
  have hdraw : (UInt32.ofNat (4097 + k) - 1).toNat = 4096 + k := by
    rw [toNat_ofNat_sub_one (by omega) (by omega)]
    omega
  have hfull : 4096 ≤ ((fullAt k).insertIdx - (fullAt k).beginIdx).toNat := by
    show 4096 ≤ (UInt32.ofNat (4097 + k) - 1).toNat
    rw [hdraw]
    omega
  have hpush : (fullAt k).push 2 = (UInt32.ofNat (4097 + k), fullAt (k + 1)) := by
    rw [push_of_full hfull]
    simp only [fullAt, ofNat_succ, Nat.add_assoc]
  rw [run_cons, run_nil]
  simp only [call, hpush]

theorem run_init :
    (run call (init : RingMpsc ℕ 4096) [.push 2, .pop]).2 = fillingAt 0 := by
  have hpush : (init : RingMpsc ℕ 4096).push 2 =
      (0, ⟨1, 0, 1, Function.update (fun _ => none) (Ring.slot 4096 0) (some 2)⟩) := by
    rw [push_of_lt (by decide)]
    rfl
  have hpop : (⟨1, 0, 1, Function.update (fun _ => none) (Ring.slot 4096 0) (some 2)⟩ :
      RingMpsc ℕ 4096).pop = (some 2, fillingAt 0) := by
    rw [pop_of_some (a := 2) (by decide) (by simp)]
    simp only [UInt32.toNat_zero, Function.update_idem, fillingAt, Prod.mk.injEq, true_and]
    congr 1
    funext i
    simp [filled, Function.update_apply]
  rw [run_cons, run_cons, run_nil]
  simp only [call, hpush, hpop]

theorem filled_ne {j a : ℕ} (ha : a ≠ 2) (i : Fin 4096) : filled j i ≠ some a := by
  unfold filled
  split_ifs
  · exact fun h => ha (Option.some.inj h).symm
  · exact (Option.some_ne_none a).symm

/-- The calls before the failing push: a push and a pop, then `2 ^ 32 - 1` pushes. -/
def wrapInput : List (Op ℕ) := [.push 2, .pop] ++ (List.replicate (2 ^ 32 - 1) [.push 2]).flatten

/-- The state `wrapInput` leaves: full, with `_insert_idx` wrapped to `0`. -/
theorem run_wrapInput : (run call (init : RingMpsc ℕ 4096) wrapInput).2 = fullAt (2 ^ 32 - 4097) := by
  have hsplit : (List.replicate (2 ^ 32 - 1) ([.push 2] : List (Op ℕ))).flatten =
      (List.replicate 4096 [.push 2]).flatten ++ (List.replicate (2 ^ 32 - 4097) [.push 2]).flatten := by
    conv_lhs => rw [show 2 ^ 32 - 1 = 4096 + (2 ^ 32 - 4097) from rfl, List.replicate_add,
      List.flatten_append]
  have hfill : (run call (fillingAt 0) (List.replicate 4096 [.push 2]).flatten).2 = fillingAt 4096 :=
    congrArg Prod.snd (run_iterate call fillingAt [.push 2] (fun _ => [.pushed 0]) 4096
      fun j hj => run_fillingAt hj)
  have hfull : (run call (fullAt 0) (List.replicate (2 ^ 32 - 4097) [.push 2]).flatten).2 =
      fullAt (2 ^ 32 - 4097) :=
    congrArg Prod.snd (run_iterate call fullAt [.push 2]
      (fun k => [.pushed (UInt32.ofNat (4097 + k))]) (2 ^ 32 - 4097) fun k hk => run_fullAt hk)
  have hjoin : fillingAt 4096 = fullAt 0 := rfl
  -- only rewrites: no step may evaluate the run of `2 ^ 32` calls
  rw [wrapInput, hsplit, run_append_snd, run_init, run_append_snd, hfill, hjoin, hfull]

/-- **A push reports success and stores nothing.**  On a `ring_mpsc<int, 4096>`, after a push
and a pop, `2 ^ 32 - 1` pushes fill the ring and then fail, drawing indices up to `2 ^ 32 - 1`;
the next push draws the wrapped index `0`, finds the ring full and returns it, the success
code, while no cell holds its element. -/
theorem ringMpsc_push_reports_unstored :
    ((run call (init : RingMpsc ℕ 4096) wrapInput).2.push 3).1 = 0 ∧
      ∀ i, ((run call (init : RingMpsc ℕ 4096) wrapInput).2.push 3).2.ring i ≠ some 3 := by
  have hwrap : (fullAt (2 ^ 32 - 4097)).insertIdx = 0 := UInt32.ofNat_size
  have hdrawn : 4096 ≤ ((fullAt (2 ^ 32 - 4097)).insertIdx - (fullAt (2 ^ 32 - 4097)).beginIdx).toNat := by
    rw [hwrap]
    decide
  rw [run_wrapInput, push_of_full hdrawn]
  exact ⟨hwrap, fun i => filled_ne (by decide) i⟩

end RingMpsc

end Osv.Lockfree
