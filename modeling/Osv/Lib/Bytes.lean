import Mathlib

/-!
# Little-endian words in a byte-addressed memory

A memory is a function from addresses to bytes.  `toListLE w n` is the `w` bytes of `n`, least
significant first, and `ofListLE` reads a number back from its bytes; `write m a bs` stores
`bs` from address `a`, and `read m a n` loads `n` bytes from there.

The lemmas are what a serializer and its decoder are proved with: the round trip of the
encoding (`ofListLE_toListLE`), a load of what a store wrote (`read_write_self`), the frame rule
(`write_apply_of_not_mem`, `read_write_of_disjoint`: a store leaves every other address as it
was), and a load split in two (`read_add`).
-/

namespace Bytes

/-- A byte-addressed memory. -/
abbrev Mem := ℕ → UInt8

/-- The `w` little-endian bytes of `n`; bits above `8 * w` are dropped. -/
def toListLE : ℕ → ℕ → List UInt8
  | 0, _ => []
  | w + 1, n => UInt8.ofNat (n % 256) :: toListLE w (n / 256)

theorem toListLE_succ (w n : ℕ) :
    toListLE (w + 1) n = UInt8.ofNat (n % 256) :: toListLE w (n / 256) := rfl

/-- The number whose little-endian bytes these are. -/
def ofListLE : List UInt8 → ℕ
  | [] => 0
  | b :: bs => b.toNat + 256 * ofListLE bs

theorem ofListLE_cons (b : UInt8) (bs : List UInt8) : ofListLE (b :: bs) = b.toNat + 256 * ofListLE bs :=
  rfl

@[simp] theorem length_toListLE (w n : ℕ) : (toListLE w n).length = w := by
  induction w generalizing n with
  | zero => rfl
  | succ w ih => simp only [toListLE_succ, List.length_cons, ih]

theorem toListLE_zero (w : ℕ) : toListLE w 0 = List.replicate w 0 := by
  induction w with
  | zero => rfl
  | succ w ih => rw [toListLE_succ, Nat.zero_mod, Nat.zero_div, ih, List.replicate_succ]; rfl

theorem ofListLE_toListLE (w n : ℕ) : ofListLE (toListLE w n) = n % 256 ^ w := by
  induction w generalizing n with
  | zero => rw [Nat.pow_zero, Nat.mod_one]; rfl
  | succ w ih =>
      have hbyte : (UInt8.ofNat (n % 256)).toNat = n % 256 := by
        rw [UInt8.toNat_ofNat']
        omega
      rw [toListLE_succ, ofListLE_cons, ih, hbyte, Nat.pow_succ', Nat.mod_mul]

/-- The first `w` bytes spell the number modulo `256 ^ w`. -/
theorem ofListLE_take (w : ℕ) (bs : List UInt8) : ofListLE (bs.take w) = ofListLE bs % 256 ^ w := by
  induction w generalizing bs with
  | zero => rw [List.take_zero, Nat.pow_zero, Nat.mod_one]; rfl
  | succ w ih =>
      cases bs with
      | nil => exact (Nat.zero_mod _).symm
      | cons b bs =>
          have hb : b.toNat < 256 := b.toNat_lt
          rw [List.take_succ_cons, ofListLE_cons, ofListLE_cons, ih, Nat.pow_succ', Nat.mod_mul,
            show (b.toNat + 256 * ofListLE bs) % 256 = b.toNat by omega,
            show (b.toNat + 256 * ofListLE bs) / 256 = ofListLE bs by omega]

/-- Store `bs` from address `a`. -/
def write (m : Mem) (a : ℕ) (bs : List UInt8) : Mem :=
  fun x => if a ≤ x ∧ x < a + bs.length then bs.getD (x - a) 0 else m x

/-- Load `n` bytes from address `a`. -/
def read (m : Mem) : ℕ → ℕ → List UInt8
  | _, 0 => []
  | a, n + 1 => m a :: read m (a + 1) n

theorem read_succ (m : Mem) (a n : ℕ) : read m a (n + 1) = m a :: read m (a + 1) n := rfl

@[simp] theorem length_read (m : Mem) (a n : ℕ) : (read m a n).length = n := by
  induction n generalizing a with
  | zero => rfl
  | succ n ih => simp only [read_succ, List.length_cons, ih]

theorem write_apply_of_not_mem {m : Mem} {a x : ℕ} {bs : List UInt8}
    (h : x < a ∨ a + bs.length ≤ x) : write m a bs x = m x := by
  rw [write, if_neg (by omega)]

theorem write_apply_add {m : Mem} {a k : ℕ} {bs : List UInt8} (h : k < bs.length) :
    write m a bs (a + k) = bs.getD k 0 := by
  rw [write, if_pos (by omega), Nat.add_sub_cancel_left]

/-- A load sees only the bytes it covers. -/
theorem read_congr {m m' : Mem} {a b : ℕ} :
    ∀ {n : ℕ}, (∀ k < n, m (a + k) = m' (b + k)) → read m a n = read m' b n := by
  intro n
  induction n generalizing a b with
  | zero => intro _; rfl
  | succ n ih =>
      intro h
      have h0 := h 0 (Nat.succ_pos n)
      simp only [Nat.add_zero] at h0
      have hrest : ∀ k < n, m (a + 1 + k) = m' (b + 1 + k) := fun k hk => by
        simpa [Nat.add_assoc, Nat.add_comm 1 k] using h (k + 1) (by omega)
      rw [read_succ, read_succ, h0, ih hrest]

theorem read_add (m : Mem) (a n k : ℕ) : read m a (n + k) = read m a n ++ read m (a + n) k := by
  induction n generalizing a with
  | zero => rw [Nat.zero_add, Nat.add_zero]; rfl
  | succ n ih =>
      rw [Nat.add_right_comm, read_succ, read_succ, ih, List.cons_append, Nat.add_assoc, Nat.add_comm 1 n]

/-- A load of bytes that are `bs` returns `bs`. -/
theorem read_eq {m : Mem} {a : ℕ} {bs : List UInt8} :
    (∀ k (hk : k < bs.length), m (a + k) = bs[k]) → read m a bs.length = bs := by
  induction bs generalizing a with
  | nil => intro _; rfl
  | cons b bs ih =>
      intro h
      have hrest : ∀ k (hk : k < bs.length), m (a + 1 + k) = bs[k] := fun k hk => by
        rw [show a + 1 + k = a + (k + 1) by omega]
        exact h (k + 1) (by simpa using hk)
      rw [List.length_cons, read_succ, ih hrest, ← Nat.add_zero a, h 0 (by simp), List.getElem_cons_zero]

theorem read_write_self (m : Mem) (a : ℕ) (bs : List UInt8) :
    read (write m a bs) a bs.length = bs :=
  read_eq fun k hk => by rw [write_apply_add hk, List.getD_eq_getElem?_getD, List.getElem?_eq_getElem hk,
    Option.getD_some]

theorem read_write_of_length {m : Mem} {a n : ℕ} {bs : List UInt8} (h : bs.length = n) :
    read (write m a bs) a n = bs :=
  h ▸ read_write_self m a bs

theorem read_write_of_disjoint {m : Mem} {a x n : ℕ} {bs : List UInt8}
    (h : x + n ≤ a ∨ a + bs.length ≤ x) : read (write m a bs) x n = read m x n :=
  read_congr fun k hk => write_apply_of_not_mem (by omega)

/-- A load inside a store reads the stored bytes it covers. -/
theorem read_write_sub (m : Mem) (a : ℕ) (bs : List UInt8) {off n : ℕ} (h : off + n ≤ bs.length) :
    read (write m a bs) (a + off) n = (bs.drop off).take n := by
  have hlen : ((bs.drop off).take n).length = n := by
    rw [List.length_take, List.length_drop]
    omega
  conv_lhs => rw [← hlen]
  refine read_eq fun k hk => ?_
  rw [hlen] at hk
  rw [Nat.add_assoc, write_apply_add (by omega), List.getD_eq_getElem?_getD,
    List.getElem?_eq_getElem (by omega), Option.getD_some, List.getElem_take, List.getElem_drop]

/-- The low bit of a number is that of its first byte. -/
theorem ofListLE_cons_mod_two (b : UInt8) (bs : List UInt8) :
    ofListLE (b :: bs) % 2 = b.toNat % 2 := by
  rw [ofListLE_cons]
  omega

theorem length_flatMap_const {α β : Type*} {f : α → List β} {w : ℕ} (hf : ∀ x, (f x).length = w)
    (xs : List α) : (xs.flatMap f).length = w * xs.length := by
  induction xs with
  | nil => rfl
  | cons x xs ih => rw [List.flatMap_cons, List.length_append, ih, hf, List.length_cons, Nat.mul_succ,
      Nat.add_comm]

/-- The `k`-th chunk of equal-length chunks. -/
theorem flatMap_drop_take {α β : Type*} {f : α → List β} {w : ℕ} (hf : ∀ x, (f x).length = w) :
    ∀ (xs : List α) (k : ℕ) (hk : k < xs.length), ((xs.flatMap f).drop (w * k)).take w = f xs[k]
  | [], _, hk => absurd hk (Nat.not_lt_zero _)
  | x :: xs, 0, _ => by
      rw [List.flatMap_cons, Nat.mul_zero, List.drop_zero, List.getElem_cons_zero,
        List.take_left' (hf x)]
  | x :: xs, k + 1, hk => by
      rw [List.flatMap_cons, Nat.mul_succ, Nat.add_comm, List.drop_append, hf x,
        List.drop_eq_nil_of_le (by rw [hf x]; omega), List.nil_append, Nat.add_sub_cancel_left,
        List.getElem_cons_succ]
      exact flatMap_drop_take hf xs k (by simpa using hk)

end Bytes
