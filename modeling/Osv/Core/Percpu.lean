import Mathlib.Data.List.Pairwise
import Osv.Lib.Transition

/-!
# The dynamic per-cpu area

`core/percpu.cc` hands out offsets into a `dynamic_percpu_max`-byte buffer that every cpu's
per-cpu area has a copy of.  A `std::bitset<dynamic_percpu_max>` marks the bytes in use.
`dynamic_percpu_alloc(size, align)` tries the offsets `i = 0, align, 2 * align, ...` below
`dynamic_percpu_max` in turn, tests the bits `i .. i + size - 1` one after the other, stops at
the first one set, and takes `i` when none is; it returns `dynamic_percpu_base() + i`, and
aborts when every offset fails.  `dynamic_percpu_free(offset, size)` clears the bits again.
`std::bitset::test` and `set` throw `std::out_of_range` for a bit past the end.

**The model.**  The bitset is a function to `Bool`; a call fails with `outOfRange` where the
bitset throws and with `exhausted` where the code aborts.  The outer loop runs on a fuel of
`dynamic_percpu_max + 1`, more than the offsets it tries for `align ≥ 1`.  `percpuSystem` is
every sequence of calls with `size ≥ 1` and `align ≥ 1`, each free of a live allocation; the
ghost `live` lists the live allocations, as offsets from the base and sizes.

**What holds.**  An allocation is the first offset, among the multiples of `align`, whose bytes
are free and below `dynamic_percpu_max`, and it marks exactly those bytes
(`dynamicPercpuAlloc_ok`); a free clears exactly the allocation's bytes; over every run the
bitset is the union of the live allocations, which are disjoint and inside the area
(`inv_reachable`).  A failed allocation had no such offset (`dynamicPercpuAlloc_error`).

**What does not.**  The inner loop does not bound `i + j` by the size of the bitset.  Where the
free bytes at the end of the area are too few, it tests the bit past the end and throws instead
of reaching the abort: after `dynamic_percpu_alloc(65535, 1)`, `dynamic_percpu_alloc(2, 1)`
throws `std::out_of_range` (`dynamic_percpu_alloc_out_of_range`).
-/

namespace Osv.Core

open Transition

def dynamicPercpuMax : ℕ := 65536

/-- How a call fails: `std::out_of_range` from the bitset, or `abort("exhausted dynamic percpu
pool")`. -/
inductive PercpuError where
  | outOfRange
  | exhausted
  deriving DecidableEq, Repr

/-- The inner loop `for (; j < size; ++j) if (test(i + j)) break;` with `n` bits left to test:
whether it reached `j == size`. -/
def probe (allocated : ℕ → Bool) (i : ℕ) : ℕ → ℕ → Except PercpuError Bool
  | 0, _ => .ok true
  | n + 1, j =>
      if dynamicPercpuMax ≤ i + j then .error .outOfRange
      else if allocated (i + j) then .ok false
      else probe allocated i n (j + 1)

/-- `for (j = 0; j < size; ++j) set(i + j, v)` on bits inside the bitset. -/
def setRange (allocated : ℕ → Bool) (i size : ℕ) (v : Bool) : ℕ → Bool :=
  fun k => if i ≤ k ∧ k < i + size then v else allocated k

/-- The outer loop `for (i = 0; i < dynamic_percpu_max; i += align)` from `i`: the offset taken
and the bitset after. -/
def allocLoop (allocated : ℕ → Bool) (size align : ℕ) :
    ℕ → ℕ → Except PercpuError (ℕ × (ℕ → Bool))
  | 0, _ => .error .exhausted
  | fuel + 1, i =>
      if i < dynamicPercpuMax then
        match probe allocated i size 0 with
        | .error e => .error e
        | .ok true => .ok (i, setRange allocated i size true)
        | .ok false => allocLoop allocated size align fuel (i + align)
      else .error .exhausted

/-- `dynamic_percpu_alloc(size, align)`: the address returned and the bitset after. -/
def dynamicPercpuAlloc (base : ℕ) (allocated : ℕ → Bool) (size align : ℕ) :
    Except PercpuError (ℕ × (ℕ → Bool)) :=
  (allocLoop allocated size align (dynamicPercpuMax + 1) 0).map fun r => (base + r.1, r.2)

/-- `dynamic_percpu_free(offset, size)`: `offset - dynamic_percpu_base()` is a `size_t`, so an
offset below the base is far past the end, and the first `set` throws. -/
def dynamicPercpuFree (base : ℕ) (allocated : ℕ → Bool) (offset size : ℕ) :
    Except PercpuError (ℕ → Bool) :=
  if 0 < size ∧ (offset < base ∨ dynamicPercpuMax < offset - base + size) then .error .outOfRange
  else .ok (setRange allocated (offset - base) size false)

/-! ## The loops -/

theorem probe_zero (a : ℕ → Bool) (i j : ℕ) : probe a i 0 j = .ok true := rfl

theorem probe_succ (a : ℕ → Bool) (i n j : ℕ) :
    probe a i (n + 1) j =
      if dynamicPercpuMax ≤ i + j then .error .outOfRange
      else if a (i + j) then .ok false
      else probe a i n (j + 1) := rfl

/-- A probe that reaches `j == size`: every bit tested is free and inside the bitset. -/
theorem probe_ok_true {a : ℕ → Bool} {i : ℕ} :
    ∀ {n j : ℕ}, i + j ≤ dynamicPercpuMax → probe a i n j = .ok true →
      i + j + n ≤ dynamicPercpuMax ∧ ∀ k, i + j ≤ k → k < i + j + n → a k = false
  | 0, j, hij, _ => ⟨hij, fun k h₁ h₂ => by omega⟩
  | n + 1, j, _, h => by
      have hmax : ¬ dynamicPercpuMax ≤ i + j := fun hm => by simp [probe_succ, hm] at h
      have ha : a (i + j) = false := by
        cases hai : a (i + j)
        · rfl
        · simp [probe_succ, hmax, hai] at h
      simp only [probe_succ, if_neg hmax, ha, Bool.false_eq_true, if_false] at h
      obtain ⟨hle, hfree⟩ := probe_ok_true (by omega) h
      refine ⟨by omega, fun k h₁ h₂ => ?_⟩
      rcases Nat.eq_or_lt_of_le h₁ with rfl | hlt
      · exact ha
      · exact hfree k (by omega) (by omega)

/-- A probe that stops at a set bit: one of the bits it was to test is set. -/
theorem probe_ok_false {a : ℕ → Bool} {i : ℕ} :
    ∀ {n j : ℕ}, probe a i n j = .ok false → ∃ k, i + j ≤ k ∧ k < i + j + n ∧ a k = true
  | 0, j, h => by simp [probe_zero] at h
  | n + 1, j, h => by
      simp only [probe_succ] at h
      split_ifs at h with hmax ha
      · exact ⟨i + j, Nat.le_refl _, by omega, ha⟩
      · obtain ⟨k, h₁, h₂, hk⟩ := probe_ok_false h
        exact ⟨k, by omega, by omega, hk⟩

/-- A probe that throws: the bits it was to test run past the end of the bitset. -/
theorem probe_error {a : ℕ → Bool} {i : ℕ} {e : PercpuError} :
    ∀ {n j : ℕ}, probe a i n j = .error e → dynamicPercpuMax < i + j + n
  | 0, j, h => by simp [probe_zero] at h
  | n + 1, j, h => by
      simp only [probe_succ] at h
      split_ifs at h with hmax ha
      · omega
      · have := probe_error h
        omega

/-- A probe of free bits inside the bitset reaches `j == size`. -/
theorem probe_of_free {a : ℕ → Bool} {i : ℕ} :
    ∀ {n j : ℕ}, i + j + n ≤ dynamicPercpuMax →
      (∀ k, i + j ≤ k → k < i + j + n → a k = false) → probe a i n j = .ok true
  | 0, j, _, _ => rfl
  | n + 1, j, hle, hfree => by
      have hij : ¬ dynamicPercpuMax ≤ i + j := by omega
      have ha : a (i + j) = false := hfree (i + j) (Nat.le_refl _) (by omega)
      simp only [probe_succ, if_neg hij, ha, Bool.false_eq_true, if_false]
      exact probe_of_free (by omega) fun k h₁ h₂ => hfree k (by omega) (by omega)

/-- **An allocation from the outer loop** is the first candidate `i + m * align` whose bits are
free and inside the bitset, and the bitset after marks exactly its bits. -/
theorem allocLoop_ok {a : ℕ → Bool} {size align : ℕ} :
    ∀ {fuel i r : ℕ} {bits : ℕ → Bool}, allocLoop a size align fuel i = .ok (r, bits) →
      ∃ m, r = i + m * align ∧ r + size ≤ dynamicPercpuMax ∧
        (∀ k, r ≤ k → k < r + size → a k = false) ∧ bits = setRange a r size true ∧
        ∀ m' < m, ∃ k, i + m' * align ≤ k ∧ k < i + m' * align + size ∧ a k = true
  | 0, i, r, bits, h => by simp [allocLoop] at h
  | fuel + 1, i, r, bits, h => by
      by_cases hi : i < dynamicPercpuMax
      · cases hp : probe a i size 0 with
        | error e => simp [allocLoop, hi, hp] at h
        | ok fits =>
            cases fits with
            | true =>
                -- the candidate `i` is taken
                simp only [allocLoop, if_pos hi, hp, Except.ok.injEq, Prod.mk.injEq] at h
                obtain ⟨rfl, rfl⟩ := h
                obtain ⟨hle, hfree⟩ := probe_ok_true (Nat.le_of_lt hi) hp
                exact ⟨0, by simp, by simpa using hle, fun k h₁ h₂ => hfree k (by simpa using h₁)
                  (by simpa using h₂), rfl, fun m' hm' => absurd hm' (Nat.not_lt_zero _)⟩
            | false =>
                -- the candidate `i` has a set bit; the loop goes on at `i + align`
                simp only [allocLoop, if_pos hi, hp] at h
                obtain ⟨m, rfl, hle, hfree, hbits, hfirst⟩ := allocLoop_ok h
                refine ⟨m + 1, by rw [Nat.succ_mul]; omega, hle, hfree, hbits, fun m' hm' => ?_⟩
                cases m' with
                | zero => simpa using probe_ok_false hp
                | succ m' =>
                    obtain ⟨k, h₁, h₂, hk⟩ := hfirst m' (by omega)
                    exact ⟨k, by rw [Nat.succ_mul]; omega, by rw [Nat.succ_mul]; omega, hk⟩
      · simp [allocLoop, hi] at h

/-- **A failed outer loop** had no candidate whose bits are free and inside the bitset, for a
fuel that reaches past the end. -/
theorem allocLoop_error {a : ℕ → Bool} {size align : ℕ} (hsize : 0 < size) (halign : 0 < align) :
    ∀ {fuel i : ℕ} {e : PercpuError}, dynamicPercpuMax ≤ i + fuel →
      allocLoop a size align fuel i = .error e →
      ∀ m, i + m * align + size ≤ dynamicPercpuMax →
        ∃ k, i + m * align ≤ k ∧ k < i + m * align + size ∧ a k = true
  | 0, i, e, hfuel, _, m, hm => absurd hm (by omega)
  | fuel + 1, i, e, hfuel, h, m, hm => by
      by_cases hi : i < dynamicPercpuMax
      · cases hp : probe a i size 0 with
        | error e' =>
            -- a throw: the candidate `i` already runs past the end, and so does every later one
            have := probe_error hp
            omega
        | ok fits =>
            cases fits with
            | true => simp [allocLoop, hi, hp] at h
            | false =>
                simp only [allocLoop, if_pos hi, hp] at h
                cases m with
                | zero => simpa using probe_ok_false hp
                | succ m =>
                    obtain ⟨k, h₁, h₂, hk⟩ := allocLoop_error hsize halign (by omega) h m
                      (by rw [Nat.succ_mul] at hm; omega)
                    exact ⟨k, by rw [Nat.succ_mul]; omega, by rw [Nat.succ_mul]; omega, hk⟩
      · omega

/-- **`dynamic_percpu_alloc` returns the first fit**: `base + i` for the least multiple `i` of
`align` whose `size` bytes are free and inside the area, with exactly those bytes marked. -/
theorem dynamicPercpuAlloc_ok {base : ℕ} {a : ℕ → Bool} {size align p : ℕ} {bits : ℕ → Bool}
    (h : dynamicPercpuAlloc base a size align = .ok (p, bits)) :
    ∃ m, p = base + m * align ∧ m * align + size ≤ dynamicPercpuMax ∧
      (∀ k, m * align ≤ k → k < m * align + size → a k = false) ∧
      bits = setRange a (m * align) size true ∧
      ∀ m' < m, ∃ k, m' * align ≤ k ∧ k < m' * align + size ∧ a k = true := by
  unfold dynamicPercpuAlloc at h
  cases hl : allocLoop a size align (dynamicPercpuMax + 1) 0 with
  | error e => simp [hl, Except.map] at h
  | ok r =>
      simp only [hl, Except.map, Except.ok.injEq, Prod.mk.injEq] at h
      obtain ⟨rfl, rfl⟩ := h
      obtain ⟨m, hr, hle, hfree, hbits, hfirst⟩ := allocLoop_ok hl
      rw [Nat.zero_add] at hr
      exact ⟨m, by rw [hr], hr ▸ hle, hr ▸ hfree, hr ▸ hbits, by simpa using hfirst⟩

/-- **A failed `dynamic_percpu_alloc`** had no fit. -/
theorem dynamicPercpuAlloc_error {base : ℕ} {a : ℕ → Bool} {size align : ℕ} {e : PercpuError}
    (hsize : 0 < size) (halign : 0 < align) (h : dynamicPercpuAlloc base a size align = .error e) :
    ∀ m, m * align + size ≤ dynamicPercpuMax →
      ∃ k, m * align ≤ k ∧ k < m * align + size ∧ a k = true := by
  unfold dynamicPercpuAlloc at h
  cases hl : allocLoop a size align (dynamicPercpuMax + 1) 0 with
  | error e' =>
      intro m hm
      simpa using allocLoop_error hsize halign (by omega) hl m (by simpa using hm)
  | ok r => simp [hl, Except.map] at h

/-- A free inside the area clears exactly the allocation's bits. -/
theorem dynamicPercpuFree_of_le {base offset size : ℕ} (a : ℕ → Bool) (hbase : base ≤ offset)
    (hle : offset - base + size ≤ dynamicPercpuMax) :
    dynamicPercpuFree base a offset size = .ok (setRange a (offset - base) size false) := by
  have hin : ¬ (0 < size ∧ (offset < base ∨ dynamicPercpuMax < offset - base + size)) := by omega
  simp only [dynamicPercpuFree, if_neg hin]

/-! ## Runs of calls -/

/-- The bitset, and as a ghost the live allocations: offset from the base, and size. -/
structure PercpuState where
  allocated : ℕ → Bool
  live : List (ℕ × ℕ)

/-- `dynamic_percpu_alloc(size, align)` or `dynamic_percpu_free(offset, size)`. -/
inductive PercpuCall where
  | alloc (size align : ℕ)
  | free (offset size : ℕ)
  deriving DecidableEq, Repr

namespace PercpuState

/-- Nothing allocated. -/
def init : PercpuState := ⟨fun _ => false, []⟩

/-- One call, for `size ≥ 1` and `align ≥ 1` and a free of a live allocation; none where the
call throws or aborts. -/
def step (base : ℕ) (s : PercpuState) : PercpuCall → Option PercpuState
  | .alloc size align =>
      if 0 < size ∧ 0 < align then
        match dynamicPercpuAlloc base s.allocated size align with
        | .ok (offset, allocated) => some ⟨allocated, (offset - base, size) :: s.live⟩
        | .error _ => none
      else none
  | .free offset size =>
      if base ≤ offset ∧ (offset - base, size) ∈ s.live then
        match dynamicPercpuFree base s.allocated offset size with
        | .ok allocated => some ⟨allocated, s.live.erase (offset - base, size)⟩
        | .error _ => none
      else none

end PercpuState

/-- Every run of calls on the area at `base`. -/
def percpuSystem (base : ℕ) : System PercpuState PercpuCall :=
  System.ofFun (· = PercpuState.init) (PercpuState.step base)

/-- Two allocations share no byte. -/
def Apart (p q : ℕ × ℕ) : Prop := p.1 + p.2 ≤ q.1 ∨ q.1 + q.2 ≤ p.1

instance : Std.Symm Apart := ⟨fun _ _ h => h.symm⟩

/-- **The bookkeeping**: the bitset marks exactly the bytes of the live allocations, which are
not empty, lie inside the area and share no byte. -/
structure PercpuState.Inv (s : PercpuState) : Prop where
  bits : ∀ k, s.allocated k = true ↔ ∃ p ∈ s.live, p.1 ≤ k ∧ k < p.1 + p.2
  inside : ∀ p ∈ s.live, 0 < p.2 ∧ p.1 + p.2 ≤ dynamicPercpuMax
  apart : s.live.Pairwise Apart

namespace PercpuState

variable {s : PercpuState}

theorem inv_init : init.Inv := ⟨by simp [init], by simp [init], List.Pairwise.nil⟩

/-- A range of free bytes shares none with a live allocation. -/
theorem Inv.apart_of_free (h : s.Inv) {r size : ℕ} (hsize : 0 < size)
    (hfree : ∀ k, r ≤ k → k < r + size → s.allocated k = false) :
    ∀ q ∈ s.live, Apart (r, size) q := by
  intro q hq
  have hq2 := (h.inside q hq).1
  by_contra hover
  simp only [Apart, not_or, Nat.not_le] at hover
  -- the later of the two first bytes lies in both ranges
  obtain ⟨k, hk₁, hk₂, hkq⟩ : ∃ k, r ≤ k ∧ k < r + size ∧ q.1 ≤ k ∧ k < q.1 + q.2 := by
    by_cases hrq : r ≤ q.1
    · exact ⟨q.1, hrq, hover.1, Nat.le_refl _, by omega⟩
    · exact ⟨r, Nat.le_refl _, by omega, by omega, hover.2⟩
  have hmarked := (h.bits k).mpr ⟨q, hq, hkq⟩
  rw [hfree k hk₁ hk₂] at hmarked
  exact Bool.false_ne_true hmarked

/-- **An allocation keeps the bookkeeping.** -/
theorem Inv.alloc (h : s.Inv) {base size align p : ℕ} {bits : ℕ → Bool} (hsize : 0 < size)
    (ha : dynamicPercpuAlloc base s.allocated size align = .ok (p, bits)) :
    Inv ⟨bits, (p - base, size) :: s.live⟩ := by
  obtain ⟨m, rfl, hle, hfree, rfl, -⟩ := dynamicPercpuAlloc_ok ha
  rw [Nat.add_sub_cancel_left]
  refine ⟨fun k => ?_, ?_, ?_⟩
  · by_cases hk : m * align ≤ k ∧ k < m * align + size
    · simp only [setRange, if_pos hk, List.mem_cons, true_iff]
      exact ⟨_, .inl rfl, hk⟩
    · simp only [setRange, if_neg hk, h.bits, List.mem_cons]
      constructor
      · rintro ⟨q, hq, hkq⟩
        exact ⟨q, .inr hq, hkq⟩
      · rintro ⟨q, rfl | hq, hkq⟩
        · exact absurd hkq hk
        · exact ⟨q, hq, hkq⟩
  · intro q hq
    rcases List.mem_cons.mp hq with rfl | hq
    · exact ⟨hsize, hle⟩
    · exact h.inside q hq
  · exact List.Pairwise.cons (h.apart_of_free hsize hfree) h.apart

/-- The live allocations are distinct. -/
theorem Inv.nodup (h : s.Inv) : s.live.Nodup :=
  h.apart.imp_of_mem fun {p q} hp _ hpq heq => by
    have := (h.inside p hp).1
    subst heq
    rcases hpq with h' | h' <;> omega

/-- **A free of a live allocation keeps the bookkeeping.** -/
theorem Inv.free (h : s.Inv) {r size : ℕ} (hlive : (r, size) ∈ s.live) :
    Inv ⟨setRange s.allocated r size false, s.live.erase (r, size)⟩ := by
  have hmem : ∀ q, q ∈ s.live.erase (r, size) ↔ q ≠ (r, size) ∧ q ∈ s.live := fun q =>
    h.nodup.mem_erase_iff
  refine ⟨fun k => ?_, fun q hq => h.inside q ((hmem q).mp hq).2,
    h.apart.sublist (List.erase_sublist)⟩
  by_cases hk : r ≤ k ∧ k < r + size
  · -- a byte of the allocation freed: no other live allocation has it
    simp only [setRange, if_pos hk, Bool.false_eq_true, false_iff, not_exists, not_and]
    intro q hq hkq
    obtain ⟨hne, hq⟩ := (hmem q).mp hq
    have hapart : Apart (r, size) q := h.apart.forall hlive hq (Ne.symm hne)
    simp only [Apart] at hapart
    omega
  · simp only [setRange, if_neg hk, h.bits]
    constructor
    · rintro ⟨q, hq, hkq⟩
      refine ⟨q, (hmem q).mpr ⟨fun heq => hk (by rw [heq] at hkq; exact hkq), hq⟩, hkq⟩
    · rintro ⟨q, hq, hkq⟩
      exact ⟨q, ((hmem q).mp hq).2, hkq⟩

/-- **What a call does**: an allocation of `size ≥ 1` at `align ≥ 1` that succeeded, recorded
as live, or a free of a live allocation. -/
theorem step_cases {base : ℕ} {c : PercpuCall} {t : PercpuState} (h : s.step base c = some t) :
    (∃ size align p bits, c = .alloc size align ∧ 0 < size ∧ 0 < align ∧
      dynamicPercpuAlloc base s.allocated size align = .ok (p, bits) ∧
      t = ⟨bits, (p - base, size) :: s.live⟩) ∨
    (∃ offset size, c = .free offset size ∧ base ≤ offset ∧ (offset - base, size) ∈ s.live ∧
      dynamicPercpuFree base s.allocated offset size = .ok t.allocated ∧
      t.live = s.live.erase (offset - base, size)) := by
  cases c with
  | alloc size align =>
      by_cases hok : 0 < size ∧ 0 < align
      · simp only [step, if_pos hok] at h
        cases ha : dynamicPercpuAlloc base s.allocated size align with
        | error e => simp [ha] at h
        | ok r =>
            simp only [ha, Option.some.injEq] at h
            exact .inl ⟨size, align, r.1, r.2, rfl, hok.1, hok.2, ha, h.symm⟩
      · simp [step, hok] at h
  | free offset size =>
      by_cases hok : base ≤ offset ∧ (offset - base, size) ∈ s.live
      · simp only [step, if_pos hok] at h
        cases hf : dynamicPercpuFree base s.allocated offset size with
        | error e => simp [hf] at h
        | ok bits =>
            simp only [hf, Option.some.injEq] at h
            subst h
            exact .inr ⟨offset, size, rfl, hok.1, hok.2, hf, rfl⟩
      · simp [step, hok] at h

/-- A free of a live allocation never throws and clears exactly its bits. -/
theorem Inv.free_ok (h : s.Inv) {base offset size : ℕ} (hbase : base ≤ offset)
    (hlive : (offset - base, size) ∈ s.live) :
    dynamicPercpuFree base s.allocated offset size =
      .ok (setRange s.allocated (offset - base) size false) :=
  dynamicPercpuFree_of_le _ hbase (h.inside _ hlive).2

theorem Inv.step (h : s.Inv) {base : ℕ} {c : PercpuCall} {t : PercpuState}
    (hstep : s.step base c = some t) : t.Inv := by
  rcases step_cases hstep with ⟨size, align, p, bits, -, hsize, -, ha, rfl⟩ |
    ⟨offset, size, -, hbase, hlive, hf, hlive'⟩
  · exact h.alloc hsize ha
  · rw [h.free_ok hbase hlive, Except.ok.injEq] at hf
    obtain ⟨allocated, live⟩ := t
    simp only at hf hlive'
    subst hf hlive'
    exact h.free hlive

/-- **The bookkeeping holds over every run.** -/
theorem inv_reachable {base : ℕ} (hs : Reachable (percpuSystem base) s) : s.Inv :=
  Inductive.reachable ⟨fun _ h => h ▸ inv_init, fun _ _ _ h hstep => h.step hstep⟩ hs

/-- **Allocations are first fits, apart from every live one.**  In every reachable state, an
allocation returns `base + m * align` for the least `m` whose `size` bytes are inside the area
and apart from every live allocation. -/
theorem alloc_of_reachable {base size align p : ℕ} {bits : ℕ → Bool}
    (hs : Reachable (percpuSystem base) s) (hsize : 0 < size)
    (ha : dynamicPercpuAlloc base s.allocated size align = .ok (p, bits)) :
    ∃ m, p = base + m * align ∧ m * align + size ≤ dynamicPercpuMax ∧
      (∀ q ∈ s.live, Apart (m * align, size) q) ∧
      ∀ m' < m, ∃ q ∈ s.live, ¬ Apart (m' * align, size) q := by
  have h := inv_reachable hs
  obtain ⟨m, rfl, hle, hfree, -, hfirst⟩ := dynamicPercpuAlloc_ok ha
  refine ⟨m, rfl, hle, h.apart_of_free hsize hfree, fun m' hm' => ?_⟩
  obtain ⟨k, h₁, h₂, hk⟩ := hfirst m' hm'
  obtain ⟨q, hq, hkq⟩ := (h.bits k).mp hk
  exact ⟨q, hq, by simp only [Apart]; omega⟩

/-- On the area at `0x1000`: eight bytes at offset `0`, sixteen at `8`, and the first eight
freed again, which leaves a hole too small for sixteen bytes. -/
def gapRun : List PercpuCall := [.alloc 8 8, .alloc 16 8, .free 0x1000 8]

def gapped : PercpuState := (runFrom (step 0x1000) init gapRun).getD init

theorem gapped_reachable : Reachable (percpuSystem 0x1000) gapped :=
  reachable_of_runFrom (.init rfl) (show runFrom (step 0x1000) init gapRun = some gapped from rfl)

/-- Sixteen bytes aligned to eight skip the hole at `0` and the live allocation at `8`, and
are taken at offset `24`. -/
theorem alloc_of_reachable_gap :
    gapped.live = [(8, 16)] ∧
      dynamicPercpuAlloc 0x1000 gapped.allocated 16 8 =
        .ok (0x1018, setRange gapped.allocated 24 16 true) ∧
      ∃ m, 0x1018 = 0x1000 + m * 8 ∧ m * 8 + 16 ≤ dynamicPercpuMax ∧
        (∀ q ∈ gapped.live, Apart (m * 8, 16) q) ∧
        ∀ m' < m, ∃ q ∈ gapped.live, ¬ Apart (m' * 8, 16) q :=
  ⟨rfl, rfl, @alloc_of_reachable gapped 0x1000 16 8 0x1018 (setRange gapped.allocated 24 16 true)
    gapped_reachable (by decide) rfl⟩

end PercpuState

/-- A candidate that fits is taken. -/
theorem allocLoop_of_fits {a : ℕ → Bool} {size align fuel i : ℕ} (hi : i < dynamicPercpuMax)
    (hp : probe a i size 0 = .ok true) :
    allocLoop a size align (fuel + 1) i = .ok (i, setRange a i size true) := by
  simp only [allocLoop, if_pos hi, hp]

/-- Past candidates whose first bit is set, the outer loop goes on from the next candidate. -/
theorem allocLoop_skip {a : ℕ → Bool} {size align : ℕ} (hsize : 0 < size) :
    ∀ (K fuel i : ℕ), (∀ m < K, i + m * align < dynamicPercpuMax ∧ a (i + m * align) = true) →
      allocLoop a size align (fuel + K) i = allocLoop a size align fuel (i + K * align)
  | 0, fuel, i, _ => by simp
  | K + 1, fuel, i, hset => by
      obtain ⟨hi, hai⟩ := hset 0 (Nat.zero_lt_succ K)
      simp only [Nat.zero_mul, Nat.add_zero] at hi hai
      have hp : probe a i size 0 = .ok false := by
        obtain ⟨n, rfl⟩ : ∃ n, size = n + 1 := ⟨size - 1, by omega⟩
        simp [probe_succ, Nat.not_le.mpr hi, hai]
      rw [← Nat.add_assoc]
      simp only [allocLoop, if_pos hi, hp]
      rw [allocLoop_skip hsize K fuel (i + align) fun m hm => by
        simpa [Nat.succ_mul, Nat.add_assoc, Nat.add_comm align] using hset (m + 1) (by omega)]
      rw [Nat.succ_mul]
      congr 1
      omega

theorem dynamic_percpu_alloc_out_of_range (base : ℕ) :
    ∃ s, Reachable (percpuSystem base) s ∧
      (∀ i, i + 2 ≤ dynamicPercpuMax → ∃ k, i ≤ k ∧ k < i + 2 ∧ s.allocated k = true) ∧
      dynamicPercpuAlloc base s.allocated 2 1 = .error .outOfRange := by
  -- `dynamic_percpu_alloc(65535, 1)` takes every byte but the last
  have hfirst : dynamicPercpuAlloc base PercpuState.init.allocated 65535 1 =
      .ok (base + 0, setRange (fun _ => false) 0 65535 true) := by
    have hp : probe (fun _ => false) 0 65535 0 = .ok true :=
      probe_of_free (by decide) fun _ _ _ => rfl
    rw [dynamicPercpuAlloc, PercpuState.init, allocLoop_of_fits (by decide) hp]
    rfl
  have hstep : PercpuState.init.step base (.alloc 65535 1) =
      some ⟨setRange (fun _ => false) 0 65535 true, [(0, 65535)]⟩ := by
    simp only [PercpuState.step, if_pos (show 0 < 65535 ∧ 0 < 1 by decide), hfirst,
      Nat.add_sub_cancel_left]
    rfl
  have hreach : Reachable (percpuSystem base)
      ⟨setRange (fun _ => false) 0 65535 true, [(0, 65535)]⟩ :=
    .step (.init rfl) hstep
  -- `dynamic_percpu_alloc(2, 1)` skips the 65535 taken offsets and tests bit 65536
  have hsecond : dynamicPercpuAlloc base (setRange (fun _ => false) 0 65535 true) 2 1 =
      .error .outOfRange := by
    have hskip := @allocLoop_skip (setRange (fun _ => false) 0 65535 true) 2 1
      (Nat.zero_lt_succ 1) 65535 2 0 fun m hm => ⟨by simp [dynamicPercpuMax]; omega,
        by simp [setRange]; omega⟩
    rw [dynamicPercpuAlloc, show dynamicPercpuMax + 1 = 2 + 65535 from rfl, hskip]
    rfl
  refine ⟨_, hreach, fun i hi => ?_, hsecond⟩
  simpa using dynamicPercpuAlloc_error (Nat.zero_lt_succ 1) Nat.one_pos hsecond i
    (by simpa using hi)

end Osv.Core
