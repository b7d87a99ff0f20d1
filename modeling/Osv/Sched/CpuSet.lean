import Osv.Lib.Word

/-!
# `cpu_set`: a set of cpus in one word

`sched::cpu_set` (`include/sched.hh`) keeps the cpus below `max_cpus`, the number of bits of an
`unsigned long`, as the bits of an atomic `_mask`: `set`, `clear`, `test_and_set` and
`test_all_and_set` are one `fetch_or` or `fetch_and` each, and `fetch_clear` exchanges the mask
for `0`.  Its iterator holds an index `_idx`; `advance` moves it to the lowest set bit at or
above `_idx`, `__builtin_ctzl` of `_mask & ~((1UL << _idx) - 1)`, or to `max_cpus` when there is
none, and `++` steps past the current bit first.  `cpu::handle_incoming_wakeups` ranges over a
`fetch_clear` of `incoming_wakeups_mask`, whose bit `c` `thread::wake` sets with
`test_all_and_set(c)` for the waking cpu `c`.

**The model.**  The mask is a `UInt64`.  Its shifts are `UInt64` shifts, whose count is taken
modulo `64` as the x86 `shl` takes it: that is what `1UL << 64` compiles to.  A range-for over
the set is `visit`, with a fuel of iterator comparisons, `none` when it has not reached `end()`
when the fuel runs out.

**What holds.**  `set` and `clear` change bit `c` alone (`has_set`, `has_clear`),
`test_all_and_set` sets it and tells whether any bit was set (`testAllAndSet_eq`), and
`test_and_set` does what it says below cpu `32` (`testAndSet_of_lt`).  On a set without cpu
`63` a range-for visits the cpus of the set in increasing order and ends (`visit_begin`).  All
of it rests on `advance_spec`: `advance` finds the first set bit from its index.

**What does not.**  `test_and_set` keeps `1UL << c` in an `unsigned`, so from cpu `32` on the
bit is `0`: the mask is left as it was and the result is `false` (`testAndSet_of_le`).  After
bit `63` the iterator's `++` computes `1UL << 64`, which is `1`, so the walk starts again at
the lowest set bit: a range-for over a set holding cpu `63` never reaches `end()`
(`visit_of_has_63`), and `handle_incoming_wakeups` after a wake from cpu `63` never ends.
-/

namespace Osv.Sched

/-- `max_cpus`, the bits of an `unsigned long`. -/
def maxCpus : ℕ := 64

/-- `__builtin_ctzl(x)`: the index of the lowest set bit of a non-zero word. -/
def ctzl (x : UInt64) : ℕ := (List.range 64).findIdx fun i => x.toNat.testBit i

/-- A `cpu_set`: its `_mask`. -/
structure CpuSet where
  mask : UInt64
  deriving DecidableEq, Repr

namespace CpuSet

/-- Whether cpu `i` is in the set: bit `i` of the mask. -/
def has (s : CpuSet) (i : ℕ) : Bool := s.mask.toNat.testBit i

/-- `1UL << c`. -/
def bit (c : ℕ) : UInt64 := 1 <<< c.toUInt64

/-- `set(c)`. -/
def set (s : CpuSet) (c : ℕ) : CpuSet := ⟨s.mask ||| bit c⟩

/-- `test_and_set(c)`: whether bit `c` was set, and the set after; the bit is held in an
`unsigned bit = 1UL << c`. -/
def testAndSet (s : CpuSet) (c : ℕ) : Bool × CpuSet :=
  let b : UInt32 := (bit c).toUInt32
  (s.mask &&& b.toUInt64 ≠ 0, ⟨s.mask ||| b.toUInt64⟩)

/-- `test_all_and_set(c)`: whether any bit was set, and the set after. -/
def testAllAndSet (s : CpuSet) (c : ℕ) : Bool × CpuSet := (s.mask ≠ 0, ⟨s.mask ||| bit c⟩)

/-- `clear(c)`. -/
def clear (s : CpuSet) (c : ℕ) : CpuSet := ⟨s.mask &&& ~~~(bit c)⟩

/-- `fetch_clear()`: the set as it was, and the set it leaves. -/
def fetchClear (s : CpuSet) : CpuSet × CpuSet :=
  if s.mask ≠ 0 then (s, ⟨0⟩) else (⟨0⟩, s)

/-- `iterator::advance()` from `_idx = idx`: the new `_idx`. -/
def advance (s : CpuSet) (idx : ℕ) : ℕ :=
  let tmp := s.mask &&& ~~~(bit idx - 1)
  if tmp ≠ 0 then ctzl tmp else maxCpus

/-- `begin()`. -/
def begin (s : CpuSet) : ℕ := s.advance 0

/-- A range-for over the set from the iterator at `idx`, with `fuel` comparisons with `end()`
left: the indices it visits, or `none` when it has not reached `end()` by then. -/
def visit (s : CpuSet) : ℕ → ℕ → Option (List ℕ)
  | 0, _ => none
  | fuel + 1, idx =>
      if idx = maxCpus then some []
      else (visit s fuel (s.advance (idx + 1))).map (idx :: ·)

/-- The cpus of the set from `k` on, in increasing order. -/
def bitsFrom (s : CpuSet) (k : ℕ) : List ℕ := (List.range' k (maxCpus - k)).filter s.has

end CpuSet

/-- `cpu::handle_incoming_wakeups`: the incoming wakeup queues it drains, in order, or `none`
when its loop has not ended after `fuel` queues; and the mask it leaves. -/
def handleIncomingWakeups (fuel : ℕ) (mask : CpuSet) : Option (List ℕ) × CpuSet :=
  let (queues, mask) := mask.fetchClear
  (if queues.mask ≠ 0 then queues.visit fuel queues.begin else some [], mask)

/-! ## Bits of the mask -/

namespace CpuSet

variable (s : CpuSet)

theorem toNat_bit {c : ℕ} (hc : c < 64) : (bit c).toNat = 2 ^ c := Word.toNat_one_shiftLeft hc

/-- The shift count of `1UL << 64` is taken modulo `64`. -/
theorem bit_sixty_four : bit 64 = bit 0 := by decide

/-- No cpu at or above `max_cpus` is in a set. -/
theorem has_of_le {i : ℕ} (hi : maxCpus ≤ i) : s.has i = false := Word.testBit_of_le s.mask hi

theorem has_set {c : ℕ} (hc : c < maxCpus) (i : ℕ) :
    (s.set c).has i = (s.has i || decide (i = c)) := by
  rw [has, set, UInt64.toNat_or, Nat.testBit_or, toNat_bit hc, Nat.testBit_two_pow]
  simp only [has, eq_comm]

theorem has_clear {c : ℕ} (hc : c < maxCpus) (i : ℕ) :
    (s.clear c).has i = (s.has i && !decide (i = c)) := by
  rw [has, clear, UInt64.toNat_and, Nat.testBit_and, Word.testBit_not, toNat_bit hc, Nat.testBit_two_pow,
    has]
  by_cases hi : i < 64
  · simp only [hi, decide_true, Bool.true_and, eq_comm]
  · have hout : s.mask.toNat.testBit i = false := s.has_of_le (Nat.le_of_not_lt hi)
    simp only [hout, Bool.false_and]

/-- **`test_and_set` from cpu `32` on.**  `unsigned bit = 1UL << c` is `0`: the set is left as
it was and the result is `false`, whether bit `c` was set or not. -/
theorem testAndSet_of_le {c : ℕ} (hc : 32 ≤ c) (hc' : c < maxCpus) :
    s.testAndSet c = (false, s) := by
  have hzero : (bit c).toUInt32.toUInt64 = 0 := by
    rw [← UInt64.toNat_inj, UInt32.toNat_toUInt64, UInt64.toNat_toUInt32, toNat_bit hc',
      UInt64.toNat_zero, ← Nat.add_sub_of_le hc, Nat.pow_add]
    exact Nat.mul_mod_right _ _
  simp [testAndSet, hzero]

theorem testAllAndSet_eq (c : ℕ) : s.testAllAndSet c = (decide (s.mask ≠ 0), s.set c) := rfl

/-! ## The iterator -/

/-- `j` is the first cpu of the set from `k` on. -/
def FirstFrom (k j : ℕ) : Prop :=
  k ≤ j ∧ j < maxCpus ∧ s.has j = true ∧ ∀ i, k ≤ i → i < j → s.has i = false

/-- The word `advance` scans holds the cpus of the set from `idx` on. -/
theorem testBit_advanceWord {idx : ℕ} (hidx : idx < maxCpus) (i : ℕ) :
    (s.mask &&& ~~~(bit idx - 1)).toNat.testBit i = (s.has i && decide (idx ≤ i)) := by
  rw [UInt64.toNat_and, Nat.testBit_and, Word.testBit_not, bit,
    Word.toNat_one_shiftLeft_sub_one hidx, Nat.testBit_two_pow_sub_one]
  rw [has]
  by_cases hi : i < 64
  · by_cases hle : idx ≤ i
    · simp [hi, hle, Nat.not_lt.mpr hle]
    · simp [hi, hle, Nat.lt_of_not_le hle]
  · have hout : s.mask.toNat.testBit i = false := s.has_of_le (Nat.le_of_not_lt hi)
    simp only [hout, Bool.false_and]

/-- `__builtin_ctzl` of a word with a bit set below `64` is its lowest set bit. -/
theorem ctzl_spec {x : UInt64} {j : ℕ} (hj : j < 64) (hx : x.toNat.testBit j = true) :
    ctzl x < 64 ∧ x.toNat.testBit (ctzl x) = true ∧ ∀ i < ctzl x, x.toNat.testBit i = false := by
  have hlt : ctzl x < (List.range 64).length :=
    List.findIdx_lt_length_of_exists ⟨j, List.mem_range.mpr hj, hx⟩
  rw [List.length_range] at hlt
  refine ⟨hlt, ?_, fun i hi => ?_⟩
  · have h := @List.findIdx_getElem _ (fun i => x.toNat.testBit i) (List.range 64)
      (by rw [List.length_range]; exact hlt)
    rw [List.getElem_range] at h
    exact h
  · have := @List.not_of_lt_findIdx _ (fun i => x.toNat.testBit i) (List.range 64) i hi
    simpa [List.getElem_range] using this

/-- **`advance` finds the first cpu from its index**, or `max_cpus` when there is none. -/
theorem advance_spec {idx : ℕ} (hidx : idx < maxCpus) :
    (s.advance idx = maxCpus ∧ ∀ i, idx ≤ i → s.has i = false) ∨
      s.FirstFrom idx (s.advance idx) := by
  have hbits := s.testBit_advanceWord hidx
  by_cases hnone : ∀ i, idx ≤ i → s.has i = false
  · -- the scanned word is zero
    left
    have hzero : s.mask &&& ~~~(bit idx - 1) = 0 := by
      rw [← UInt64.toNat_inj, UInt64.toNat_zero]
      apply Nat.zero_of_testBit_eq_false
      intro i
      rw [hbits]
      by_cases hi : idx ≤ i
      · simp [hnone i hi]
      · simp [hi]
    exact ⟨by simp [advance, hzero], hnone⟩
  · right
    obtain ⟨j, hij, hj⟩ : ∃ j, idx ≤ j ∧ s.has j = true := by
      by_contra hall
      exact hnone fun i hi => by simpa using fun h => hall ⟨i, hi, h⟩
    have hj64 : j < 64 := Nat.lt_of_not_le fun h => by rw [s.has_of_le h] at hj; cases hj
    have hjw : (s.mask &&& ~~~(bit idx - 1)).toNat.testBit j = true := by
      rw [hbits, hj]
      simp [hij]
    obtain ⟨hlt, hset, hbelow⟩ := ctzl_spec hj64 hjw
    have hne : s.mask &&& ~~~(bit idx - 1) ≠ 0 := by
      intro h0
      rw [h0, UInt64.toNat_zero, Nat.zero_testBit] at hjw
      cases hjw
    have hadv : s.advance idx = ctzl (s.mask &&& ~~~(bit idx - 1)) := by simp [advance, hne]
    rw [hbits, Bool.and_eq_true, decide_eq_true_eq] at hset
    refine ⟨hadv ▸ hset.2, hadv ▸ hlt, hadv ▸ hset.1, fun i hi hil => ?_⟩
    have := hbelow i (hadv ▸ hil)
    rw [hbits] at this
    simpa [hi] using this

/-- `++` past cpu `63`: `1UL << 64` is `1UL << 0`, and the walk starts again. -/
theorem advance_sixty_four : s.advance 64 = s.begin := by
  simp only [advance, begin, bit_sixty_four]

theorem bitsFrom_of_none {k : ℕ} (hnone : ∀ i, k ≤ i → s.has i = false) : s.bitsFrom k = [] := by
  rw [bitsFrom, List.filter_eq_nil_iff]
  intro i hi
  rw [List.mem_range'_1] at hi
  simp [hnone i hi.1]

theorem bitsFrom_of_first {k j : ℕ} (hj : s.FirstFrom k j) : s.bitsFrom k = j :: s.bitsFrom (j + 1) := by
  obtain ⟨hkj, hj64, hset, hbelow⟩ := hj
  have hsplit : List.range' k (maxCpus - k) = List.range' k (j - k) ++ List.range' j (maxCpus - j) := by
    have happ := @List.range'_append k (j - k) (maxCpus - j) 1
    rw [show k + 1 * (j - k) = j by omega, show j - k + (maxCpus - j) = maxCpus - k by omega] at happ
    exact happ.symm
  have hfrom : List.range' j (maxCpus - j) = j :: List.range' (j + 1) (maxCpus - (j + 1)) := by
    rw [show maxCpus - j = maxCpus - (j + 1) + 1 by omega, List.range'_succ]
  have hskip : (List.range' k (j - k)).filter s.has = [] := by
    rw [List.filter_eq_nil_iff]
    intro i hi
    rw [List.mem_range'_1] at hi
    simp [hbelow i hi.1 (by omega)]
  rw [bitsFrom, hsplit, hfrom, List.filter_append, hskip, List.filter_cons_of_pos hset,
    List.nil_append, bitsFrom]

/-- **A range-for over a set without cpu `63`** visits the cpus from `k` on in increasing order,
and reaches `end()` once the fuel covers them. -/
theorem visit_advance (h63 : s.has 63 = false) :
    ∀ n k, maxCpus - k = n → k < maxCpus → ∀ fuel, (s.bitsFrom k).length < fuel →
      s.visit fuel (s.advance k) = some (s.bitsFrom k) := by
  intro n
  induction n using Nat.strong_induction_on with
  | _ n ih =>
      intro k hn hk fuel hfuel
      obtain ⟨fuel, rfl⟩ : ∃ f, fuel = f + 1 := ⟨fuel - 1, by omega⟩
      rcases s.advance_spec hk with ⟨hend, hnone⟩ | hfirst
      · rw [hend, s.bitsFrom_of_none hnone]
        simp [visit]
      · -- the first cpu found is below `63`, so `++` stays below `max_cpus`
        have hcons := s.bitsFrom_of_first hfirst
        obtain ⟨hkj, hj64, hset, -⟩ := hfirst
        have hj63 : s.advance k ≠ 63 := fun h => by rw [h, h63] at hset; cases hset
        rw [hcons, List.length_cons] at hfuel
        have hrest := ih (maxCpus - (s.advance k + 1)) (by omega) (s.advance k + 1) rfl
          (by unfold maxCpus at hj64 ⊢; omega) fuel (by omega)
        rw [visit, if_neg (Nat.ne_of_lt hj64), hrest, hcons, Option.map_some]

/-- **A range-for over a set without cpu `63` visits its cpus in increasing order and ends**,
given more comparisons with `end()` than there are cpus. -/
theorem visit_begin (h63 : s.has 63 = false) {fuel : ℕ} (hfuel : maxCpus < fuel) :
    s.visit fuel s.begin = some (s.bitsFrom 0) := by
  have hlen : (s.bitsFrom 0).length ≤ maxCpus := by
    rw [bitsFrom]
    exact Nat.le_trans (List.length_filter_le _ _) (by simp)
  exact s.visit_advance h63 _ 0 rfl (by decide) fuel (by omega)

/-- The cpus `1`, `5` and `62`, the last one below `63`, are visited in order. -/
theorem visit_begin_three_cpus :
    (⟨0x4000000000000022⟩ : CpuSet).has 63 = false ∧ maxCpus < 65 ∧
      (⟨0x4000000000000022⟩ : CpuSet).visit 65 (⟨0x4000000000000022⟩ : CpuSet).begin =
        some [1, 5, 62] :=
  ⟨by decide, by decide, (visit_begin _ (by decide) (by decide)).trans (by decide)⟩

/-- **A range-for over a set holding cpu `63` never ends.**  From a cpu of the set, every `++`
lands on a cpu of the set again: below `63` the next one up, at `63` the lowest. -/
theorem visit_of_has_63 (h63 : s.has 63 = true) :
    ∀ fuel idx, idx < maxCpus → s.has idx = true → s.visit fuel idx = none := by
  have hfirst : ∀ k, k < maxCpus → k ≤ 63 → s.FirstFrom k (s.advance k) := by
    intro k hk hk63
    rcases s.advance_spec hk with ⟨-, hnone⟩ | h
    · rw [hnone 63 hk63] at h63
      cases h63
    · exact h
  intro fuel
  induction fuel with
  | zero => intro idx _ _; rfl
  | succ fuel ih =>
      intro idx hidx hset
      have hnext : s.advance (idx + 1) < maxCpus ∧ s.has (s.advance (idx + 1)) = true := by
        by_cases hlast : idx + 1 < maxCpus
        · obtain ⟨-, hlt, hs, -⟩ := hfirst (idx + 1) hlast (by unfold maxCpus at hlast; omega)
          exact ⟨hlt, hs⟩
        · rw [show idx + 1 = 64 by unfold maxCpus at hidx hlast; omega, advance_sixty_four]
          obtain ⟨-, hlt, hs, -⟩ := hfirst 0 (by decide) (by decide)
          exact ⟨hlt, hs⟩
      rw [visit, if_neg (Nat.ne_of_lt hidx), ih _ hnext.1 hnext.2, Option.map_none]

theorem begin_of_has_63 (h63 : s.has 63 = true) : s.begin < maxCpus ∧ s.has s.begin = true := by
  rcases s.advance_spec (show 0 < maxCpus by decide) with ⟨-, hnone⟩ | ⟨-, hlt, hs, -⟩
  · rw [hnone 63 (by decide)] at h63
    cases h63
  · exact ⟨hlt, hs⟩

end CpuSet

/-- `test_and_set` loses the cpus from `32` on, and a range-for over a set holding cpu `63`,
such as the one `handle_incoming_wakeups` makes after a wake from cpu `63`, never ends. -/
theorem cpu_set_test_and_set_and_walk_past_63 :
    (∀ (s : CpuSet) (c : ℕ), 32 ≤ c → c < maxCpus → s.testAndSet c = (false, s)) ∧
    (∀ s : CpuSet, s.has 63 = true → ∀ fuel, s.visit fuel s.begin = none) ∧
    ∀ (mask : CpuSet) (fuel : ℕ), (handleIncomingWakeups fuel (mask.testAllAndSet 63).2).1 = none := by
  refine ⟨fun s c hc hc' => s.testAndSet_of_le hc hc', fun s h63 fuel => ?_, fun mask fuel => ?_⟩
  · exact s.visit_of_has_63 h63 fuel _ (s.begin_of_has_63 h63).1 (s.begin_of_has_63 h63).2
  · -- the wake from cpu `63` leaves bit `63` set, so the mask is not `0`
    set woken := (mask.testAllAndSet 63).2 with hwoken
    have h63 : woken.has 63 = true := by
      rw [hwoken, CpuSet.testAllAndSet_eq, CpuSet.has_set _ (by decide)]
      simp
    have hne : woken.mask ≠ 0 := by
      intro h0
      rw [CpuSet.has, h0, UInt64.toNat_zero, Nat.zero_testBit] at h63
      cases h63
    have hclear : woken.fetchClear = (woken, ⟨0⟩) := by simp [CpuSet.fetchClear, hne]
    simp only [handleIncomingWakeups, hclear, hne, ne_eq, not_false_eq_true, if_true]
    exact woken.visit_of_has_63 h63 fuel _ (woken.begin_of_has_63 h63).1 (woken.begin_of_has_63 h63).2

end Osv.Sched
