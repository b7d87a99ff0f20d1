import Mathlib.Data.List.Induction
import Mathlib.Data.List.Nodup
import Mathlib.Data.List.Perm.Basic
import Mathlib.Order.Interval.Set.Basic
import Mathlib.Order.Monotone.Basic
import Mathlib.Tactic.IntervalCases
import Osv.Lib.LinkedList

/-!
# Symbol lookup through `DT_HASH` and `DT_GNU_HASH`

`core/elf.cc` finds a dynamic symbol by name through one of two hash sections.
`lookup_symbol_old` hashes the name with `elf64_hash`, takes the bucket's first symbol index
and follows the chain array to `STN_UNDEF`.  `lookup_symbol_gnu` hashes it with `dl_new_hash`,
tests two bits of a Bloom filter word, and walks the run of consecutive symbols of the bucket
from the bucket's first index, comparing hashes without their low bit, until a chain word has
its low bit set.

Names are byte strings (`List UInt8`), entry `i` of the symbol table being named
`symName syms i`; the string table is left out.  Section words are natural numbers.  Both walks
take as fuel the number of symbols, which bounds every walk of a well-formed section.

Beside the lookups, `sysvHashOf` and `gnuHashOf` build the two sections the way the GNU linker
does: `DT_HASH` by pushing each symbol, in the order the linker visits them, on the front of
its bucket's chain; `DT_GNU_HASH` over a symbol table whose symbols from `symndx` on are
sorted by bucket, with the first index of each bucket, one chain word per symbol, and the two
Bloom bits of each symbol set.

**What holds.**  `lookup_symbol_old` returns the first symbol of the name in the order the
chain lists its bucket, the reverse of the linker's order (`lookupSymbolOld_sysvHashOf`);
`lookup_symbol_gnu` returns the lowest index from `symndx` on with the name
(`lookupSymbolGnu_gnuHashOf`), the Bloom test, which shifts without masking, never rejecting a
name of the table (`bloom_mem`).  So with every name at most once, both return the symbol of
the name from `symndx` on, or `nullptr` (`elf_lookup_agree_unique`).

**What does not.**  A name can occur twice, as versioned symbols do: then the two lookups
pick different entries (`elf_lookup_duplicate_name`).
-/

namespace Osv.Core

open LinkedList

/-- A symbol name, the bytes before the terminating `'\0'`. -/
abbrev SymName := List UInt8

/-- The name of entry `i` of the dynamic symbol table. -/
def symName (syms : List SymName) (i : ℕ) : SymName := syms.getD i []

/-- `elf64_hash(name)` -/
def elf64Hash (name : SymName) : ℕ :=
  (name.foldl (fun (h : UInt64) c =>
    let h := (h <<< 4) + c.toUInt64
    let g := h &&& 0xf0000000
    let h := if g ≠ 0 then h ^^^ (g >>> 24) else h
    h &&& 0x0fffffff) 0).toNat

/-- `dl_new_hash(s)`, with `uint_fast32_t` 64 bits wide. -/
def dlNewHash (s : SymName) : ℕ :=
  ((s.foldl (fun (h : UInt64) c => h * 33 + c.toUInt64) 5381) &&& 0xffffffff).toNat

/-- A `DT_HASH` section: `nbucket`, the bucket array and the chain array. -/
structure SysvHash where
  nbucket : ℕ
  buckets : ℕ → ℕ
  chain : ℕ → ℕ

/-- The loop of `lookup_symbol_old` from `ent`, with `fuel` iterations left. -/
def oldWalk (t : SysvHash) (syms : List SymName) (name : SymName) : ℕ → ℕ → Option ℕ
  | 0, _ => none
  | fuel + 1, ent =>
      -- `ent != STN_UNDEF`, then `strcmp(name, &strtab[sym.st_name]) == 0`
      if ent = 0 then none
      else if name = symName syms ent then some ent
      else oldWalk t syms name fuel (t.chain ent)

/-- `lookup_symbol_old(name)`: the index of the symbol found. -/
def lookupSymbolOld (t : SysvHash) (syms : List SymName) (name : SymName) : Option ℕ :=
  oldWalk t syms name syms.length (t.buckets (elf64Hash name % t.nbucket))

/-- A `DT_GNU_HASH` section: its header, the Bloom filter words, the buckets, and the chain
words, the word of symbol `i` being `chains (i - symndx)`. -/
structure GnuHash where
  nbucket : ℕ
  symndx : ℕ
  maskwords : ℕ
  shift2 : ℕ
  bloom : ℕ → ℕ
  buckets : ℕ → ℕ
  chains : ℕ → ℕ

/-- The `do ... while ((chains[idx++] & 1) == 0)` loop of `lookup_symbol_gnu` from `idx`. -/
def gnuWalk (t : GnuHash) (syms : List SymName) (name : SymName) (hashval : ℕ) :
    ℕ → ℕ → Option ℕ
  | 0, _ => none
  | fuel + 1, idx =>
      let word := t.chains (idx - t.symndx)
      -- `(chains[idx] & ~1) != (hashval & ~1)` compares the words without their low bit
      if word / 2 ≠ hashval / 2 then
        if word % 2 = 0 then gnuWalk t syms name hashval fuel (idx + 1) else none
      else if symName syms idx = name then some idx
      else if word % 2 = 0 then gnuWalk t syms name hashval fuel (idx + 1) else none

/-- `lookup_symbol_gnu(name)`: the index of the symbol found.  `C` is `64`. -/
def lookupSymbolGnu (t : GnuHash) (syms : List SymName) (name : SymName) : Option ℕ :=
  let hashval := dlNewHash name
  let bword := t.bloom (hashval / 64 % t.maskwords)
  if bword >>> (hashval % 64) = 0 ∨ bword >>> ((hashval >>> t.shift2) % 64) = 0 then none
  else
    let idx := t.buckets (hashval % t.nbucket)
    if idx = 0 then none else gnuWalk t syms name hashval syms.length idx

/-! ## The sections the linker emits -/

/-- The linker adds symbol `i` to `DT_HASH`: on the front of its bucket's chain. -/
def sysvPush (syms : List SymName) (nbucket : ℕ) (t : SysvHash) (i : ℕ) : SysvHash :=
  let b := elf64Hash (symName syms i) % nbucket
  { t with chain := Function.update t.chain i (t.buckets b),
           buckets := Function.update t.buckets b i }

/-- The `DT_HASH` section with `nbucket` buckets, the linker visiting the symbols in `order`. -/
def sysvHashOf (syms : List SymName) (nbucket : ℕ) (order : List ℕ) : SysvHash :=
  order.foldl (sysvPush syms nbucket) ⟨nbucket, fun _ => 0, fun _ => 0⟩

/-- The `dl_new_hash` of entry `i`. -/
def gnuHash (syms : List SymName) (i : ℕ) : ℕ := dlNewHash (symName syms i)

/-- The bucket of symbol `i` in `DT_GNU_HASH`. -/
def gnuBucket (syms : List SymName) (nbucket i : ℕ) : ℕ := gnuHash syms i % nbucket

/-- The `DT_GNU_HASH` section of a symbol table whose symbols from `symndx` on are sorted by
bucket: the first index of each bucket, `0` for an empty one; for each symbol its hash with
the low bit replaced by "last of its bucket"; and in Bloom word `(h / 64) % maskwords` the bits
`h % 64` and `(h >> shift2) % 64` of each symbol's hash `h`. -/
@[simps nbucket symndx maskwords shift2]
def gnuHashOf (syms : List SymName) (nbucket symndx maskwords shift2 : ℕ) : GnuHash where
  nbucket := nbucket
  symndx := symndx
  maskwords := maskwords
  shift2 := shift2
  bloom w := ((List.range' symndx (syms.length - symndx)).filter
      fun i => gnuHash syms i / 64 % maskwords = w).foldl
    (fun acc i => acc ||| 2 ^ (gnuHash syms i % 64) ||| 2 ^ ((gnuHash syms i >>> shift2) % 64)) 0
  buckets b := ((List.range' symndx (syms.length - symndx)).find?
      fun i => gnuBucket syms nbucket i = b).getD 0
  chains k :=
    gnuHash syms (symndx + k) / 2 * 2 +
      if symndx + k + 1 = syms.length ∨
          gnuBucket syms nbucket (symndx + k + 1) ≠ gnuBucket syms nbucket (symndx + k)
      then 1 else 0

/-! ## `lookup_symbol_old` on the linker's `DT_HASH` -/

/-- A chain word as a pointer, `STN_UNDEF` being null. -/
def ptr (x : ℕ) : Option ℕ := if x = 0 then none else some x

@[simp] theorem ptr_eq_none {x : ℕ} : ptr x = none ↔ x = 0 := by
  unfold ptr
  split_ifs <;> simp_all

@[simp] theorem ptr_eq_some {x a : ℕ} : ptr x = some a ↔ x = a ∧ x ≠ 0 := by
  unfold ptr
  split_ifs with h <;> simp [h, eq_comm]

/-- The bucket of symbol `i` in `DT_HASH`. -/
def sysvBucket (syms : List SymName) (nbucket i : ℕ) : ℕ := elf64Hash (symName syms i) % nbucket

/-- **The walk of `lookup_symbol_old`.**  From a bucket whose chain lists `l`, with enough fuel,
the loop returns the first symbol of `l` with the name. -/
theorem oldWalk_of_chain {t : SysvHash} {syms : List SymName} {name : SymName} {p : Option ℕ}
    {l : List ℕ} (h : Chain (fun i => ptr (t.chain i)) p l) :
    ∀ {ent fuel : ℕ}, ptr ent = p → l.length ≤ fuel →
      oldWalk t syms name fuel ent = l.find? fun i => name = symName syms i := by
  induction h with
  | nil =>
      intro ent fuel hp _
      rw [ptr_eq_none] at hp
      cases fuel <;> simp [oldWalk, hp]
  | @cons a l _ ih =>
      intro ent fuel hp hlen
      obtain ⟨rfl, h0⟩ := ptr_eq_some.mp hp
      obtain ⟨f, rfl⟩ : ∃ f, fuel = f + 1 := ⟨fuel - 1, by simp at hlen; omega⟩
      simp only [oldWalk, h0, if_false, List.find?_cons]
      by_cases hn : name = symName syms ent
      · simp [hn]
      · simp only [hn, decide_false]
        exact ih rfl (by simp at hlen; omega)

theorem sysvHashOf_nbucket (syms : List SymName) (nbucket : ℕ) (order : List ℕ) :
    (sysvHashOf syms nbucket order).nbucket = nbucket := by
  unfold sysvHashOf
  suffices ∀ t : SysvHash, (order.foldl (sysvPush syms nbucket) t).nbucket = t.nbucket from this _
  induction order with
  | nil => intro t; rfl
  | cons i rest ih => intro t; exact ih _

/-- **The chains the linker builds.**  After the symbols of `order` are pushed, each bucket's
chain lists the bucket's symbols in the reverse of `order`. -/
theorem sysvHashOf_chain (syms : List SymName) (nbucket : ℕ) {order : List ℕ} (hnd : order.Nodup)
    (h0 : 0 ∉ order) (b : ℕ) :
    Chain (fun i => ptr ((sysvHashOf syms nbucket order).chain i))
      (ptr ((sysvHashOf syms nbucket order).buckets b))
      (order.filter fun i => sysvBucket syms nbucket i = b).reverse := by
  induction order using List.reverseRecOn generalizing b with
  | nil => simp [sysvHashOf, ptr]
  | append_singleton l a ih =>
      rw [List.nodup_append] at hnd
      have ha : a ∉ l := fun h => hnd.2.2 a h a List.mem_cons_self rfl
      have ha0 : a ≠ 0 := fun h => h0 (by simp [h])
      have ih' := ih hnd.1 (fun h => h0 (List.mem_append_left _ h))
      set t := sysvHashOf syms nbucket l
      -- the chain words after the push: `a`'s now points at its bucket's old head
      have hnext : (fun i => ptr ((sysvHashOf syms nbucket (l ++ [a])).chain i)) =
          Function.update (fun i => ptr (t.chain i)) a (ptr (t.buckets (sysvBucket syms nbucket a))) := by
        funext i
        simp only [sysvHashOf, List.foldl_append, List.foldl_cons, List.foldl_nil, sysvPush]
        rw [Function.apply_update (fun _ => ptr)]
        rfl
      have hframe : ∀ b', a ∉ (l.filter fun i => sysvBucket syms nbucket i = b').reverse := by
        intro b' h
        exact ha (List.mem_of_mem_filter (List.mem_reverse.mp h))
      have hbuckets : (sysvHashOf syms nbucket (l ++ [a])).buckets =
          Function.update t.buckets (sysvBucket syms nbucket a) a := by
        simp only [sysvHashOf, List.foldl_append, List.foldl_cons, List.foldl_nil, sysvPush]
        rfl
      rw [hnext, hbuckets, List.filter_append]
      by_cases hb : sysvBucket syms nbucket a = b
      · subst hb
        simp only [Function.update_self, List.filter_singleton, decide_true, cond_true,
          List.reverse_append, List.reverse_singleton, List.singleton_append]
        refine ptr_eq_some.mpr ⟨rfl, ha0⟩ ▸ Chain.cons ?_
        rw [Function.update_self]
        exact (ih' _).update (hframe _) _
      · rw [Function.update_of_ne (Ne.symm hb), List.filter_singleton]
        simp only [hb, decide_false, cond_false, List.append_nil]
        exact (ih' b).update (hframe b) _

/-- **`lookup_symbol_old` on the linker's section.**  It returns the first symbol with the name
among the name's bucket, listed in the reverse of the linker's order. -/
theorem lookupSymbolOld_sysvHashOf {syms : List SymName} {nbucket : ℕ} {order : List ℕ}
    (hnd : order.Nodup) (h0 : 0 ∉ order) (hlen : order.length ≤ syms.length) (name : SymName) :
    lookupSymbolOld (sysvHashOf syms nbucket order) syms name =
      (order.filter fun i => sysvBucket syms nbucket i = elf64Hash name % nbucket).reverse.find?
        fun i => name = symName syms i := by
  unfold lookupSymbolOld
  rw [sysvHashOf_nbucket]
  refine oldWalk_of_chain (sysvHashOf_chain syms nbucket hnd h0 _) rfl ?_
  calc _ = _ := List.length_reverse
    _ ≤ order.length := List.length_filter_le _ _
    _ ≤ syms.length := hlen

/-! ## `lookup_symbol_gnu` on the linker's `DT_GNU_HASH` -/

/-- A symbol without the name: the loop goes on while the chain word's low bit is clear,
whether the hashes matched or not. -/
theorem gnuWalk_succ_of_ne {t : GnuHash} {syms : List SymName} {name : SymName}
    {hashval fuel idx : ℕ} (hn : symName syms idx ≠ name) :
    gnuWalk t syms name hashval (fuel + 1) idx =
      if t.chains (idx - t.symndx) % 2 = 0 then gnuWalk t syms name hashval fuel (idx + 1)
      else none := by
  rw [gnuWalk]
  by_cases hw : t.chains (idx - t.symndx) / 2 = hashval / 2 <;> simp [hw, hn]

/-- A symbol with the name and a matching chain word is returned. -/
theorem gnuWalk_succ_of_eq {t : GnuHash} {syms : List SymName} {name : SymName}
    {hashval fuel idx : ℕ} (hw : t.chains (idx - t.symndx) / 2 = hashval / 2)
    (hn : symName syms idx = name) :
    gnuWalk t syms name hashval (fuel + 1) idx = some idx := by
  simp [gnuWalk, hw, hn]

/-- A bit that one symbol of a Bloom word sets stays set in the word. -/
theorem testBit_foldl_bloom {a b : ℕ → ℕ} {k : ℕ} (l : List ℕ) :
    ∀ acc : ℕ, (acc.testBit k ∨ ∃ i ∈ l, a i = k ∨ b i = k) →
      (l.foldl (fun acc i => acc ||| 2 ^ a i ||| 2 ^ b i) acc).testBit k := by
  induction l with
  | nil => intro acc h; simpa using h
  | cons j l ih =>
      intro acc h
      apply ih
      rcases h with h | ⟨i, hi, hk⟩
      · left; simp [h]
      · rcases List.mem_cons.mp hi with rfl | hi
        · left; rcases hk with rfl | rfl <;> simp [Nat.testBit_two_pow_self]
        · exact Or.inr ⟨i, hi, hk⟩

theorem shiftRight_ne_zero_of_testBit {x k : ℕ} (h : x.testBit k) : x >>> k ≠ 0 := by
  intro h0
  have hbit : (x >>> k).testBit 0 = x.testBit (k + 0) := Nat.testBit_shiftRight x
  rw [h0, Nat.zero_testBit, Nat.add_zero, h] at hbit
  exact Bool.false_ne_true hbit

/-- A symbol's name fixes its bucket. -/
theorem gnuBucket_of_name {syms : List SymName} {nbucket i : ℕ} {name : SymName}
    (h : symName syms i = name) : gnuBucket syms nbucket i = dlNewHash name % nbucket := by
  rw [gnuBucket, gnuHash, h]

section Linker

variable {syms : List SymName} {nbucket symndx maskwords shift2 : ℕ}

theorem gnuHashOf_chains {i : ℕ} (hi : symndx ≤ i) :
    (gnuHashOf syms nbucket symndx maskwords shift2).chains (i - symndx) =
      gnuHash syms i / 2 * 2 +
        if i + 1 = syms.length ∨ gnuBucket syms nbucket (i + 1) ≠ gnuBucket syms nbucket i
        then 1 else 0 := by
  simp only [gnuHashOf, Nat.add_sub_cancel' hi]

/-- **The Bloom test passes every symbol of the table.**  Both bits that a symbol sets in its
Bloom word are set, so neither shift of the word is zero. -/
theorem bloom_mem {i : ℕ} (hi : i ∈ List.range' symndx (syms.length - symndx)) :
    (gnuHashOf syms nbucket symndx maskwords shift2).bloom (gnuHash syms i / 64 % maskwords) >>>
        (gnuHash syms i % 64) ≠ 0 ∧
      (gnuHashOf syms nbucket symndx maskwords shift2).bloom (gnuHash syms i / 64 % maskwords) >>>
        ((gnuHash syms i >>> shift2) % 64) ≠ 0 := by
  have hmem : i ∈ (List.range' symndx (syms.length - symndx)).filter
      fun j => gnuHash syms j / 64 % maskwords = gnuHash syms i / 64 % maskwords :=
    List.mem_filter.mpr ⟨hi, by simp⟩
  constructor <;> apply shiftRight_ne_zero_of_testBit <;>
    exact testBit_foldl_bloom _ _ (Or.inr ⟨i, hmem, by simp⟩)

/-- Past the last symbol of a bucket, the symbols from `symndx` on sorted by bucket, no symbol is
in the bucket. -/
theorem gnuBucket_ne_of_last
    (hsorted : MonotoneOn (gnuBucket syms nbucket) (Set.Ico symndx syms.length)) {idx j : ℕ}
    (hs : symndx ≤ idx)
    (hlast : idx + 1 = syms.length ∨ gnuBucket syms nbucket (idx + 1) ≠ gnuBucket syms nbucket idx)
    (hj1 : idx + 1 ≤ j) (hj2 : j < syms.length) :
    gnuBucket syms nbucket j ≠ gnuBucket syms nbucket idx := by
  intro hbj
  rcases hlast with hend | hne
  · omega
  · have h1 : gnuBucket syms nbucket idx ≤ gnuBucket syms nbucket (idx + 1) :=
      hsorted ⟨hs, by omega⟩ ⟨by omega, by omega⟩ (Nat.le_succ idx)
    have h2 : gnuBucket syms nbucket (idx + 1) ≤ gnuBucket syms nbucket j :=
      hsorted ⟨by omega, by omega⟩ ⟨by omega, by omega⟩ hj1
    exact hne (le_antisymm (hbj ▸ h2) h1)

/-- **The walk of `lookup_symbol_gnu`.**  From a symbol of the name's bucket, the symbols from
`symndx` on sorted by bucket, the loop returns the first symbol from there on with the name: the
low bit of the bucket's last chain word stops it, and past that no symbol is in the bucket. -/
theorem gnuWalk_gnuHashOf
    (hsorted : MonotoneOn (gnuBucket syms nbucket) (Set.Ico symndx syms.length))
    (name : SymName) {fuel : ℕ} :
    ∀ {idx : ℕ}, symndx ≤ idx → idx < syms.length → syms.length ≤ idx + fuel →
      gnuBucket syms nbucket idx = dlNewHash name % nbucket →
      gnuWalk (gnuHashOf syms nbucket symndx maskwords shift2) syms name (dlNewHash name) fuel idx =
        (List.range' idx (syms.length - idx)).find? fun i => symName syms i = name := by
  -- induction on the fuel, one symbol of the bucket a step
  induction fuel with
  | zero => intro idx _ hn hfuel _; omega
  | succ fuel ih =>
      intro idx hs hn hfuel hb
      have hrange : List.range' idx (syms.length - idx) =
          idx :: List.range' (idx + 1) (syms.length - (idx + 1)) := by
        rw [show syms.length - idx = syms.length - (idx + 1) + 1 by omega]
        rfl
      rw [hrange, List.find?_cons]
      by_cases hname : symName syms idx = name
      · -- the name matches, so does the hash
        have hw : (gnuHashOf syms nbucket symndx maskwords shift2).chains (idx - symndx) / 2 =
            dlNewHash name / 2 := by
          rw [gnuHashOf_chains hs, gnuHash, hname]
          split_ifs <;> omega
        simp [gnuWalk_succ_of_eq hw hname, hname]
      · simp only [hname, decide_false]
        rw [gnuWalk_succ_of_ne hname, gnuHashOf_symndx, gnuHashOf_chains hs]
        by_cases hlast : idx + 1 = syms.length ∨
            gnuBucket syms nbucket (idx + 1) ≠ gnuBucket syms nbucket idx
        · -- the bucket's last symbol: no later symbol is in the bucket
          rw [if_pos hlast, if_neg (by omega), eq_comm, List.find?_range'_eq_none]
          intro j hj1 hj2
          simp only [Bool.not_eq_eq_eq_not, Bool.not_true, decide_eq_false_iff_not]
          intro hj
          exact gnuBucket_ne_of_last hsorted hs hlast hj1 (by omega)
            ((gnuBucket_of_name hj).trans hb.symm)
        · rw [not_or, not_not] at hlast
          rw [if_neg (not_or.mpr ⟨hlast.1, not_not.mpr hlast.2⟩), Nat.add_zero,
            if_pos (by omega)]
          exact ih (by omega) (by omega) (by omega) (hlast.2.trans hb)

/-- **`lookup_symbol_gnu` on the linker's section.**  With the symbols from `symndx` on sorted
by bucket, it returns the first of them with the name. -/
theorem lookupSymbolGnu_gnuHashOf (h0 : 0 < symndx)
    (hsorted : MonotoneOn (gnuBucket syms nbucket) (Set.Ico symndx syms.length))
    (name : SymName) :
    lookupSymbolGnu (gnuHashOf syms nbucket symndx maskwords shift2) syms name =
      (List.range' symndx (syms.length - symndx)).find? fun i => symName syms i = name := by
  -- no symbol outside the name's bucket has the name
  have hnone : ∀ l : List ℕ,
      (∀ j ∈ l, gnuBucket syms nbucket j ≠ dlNewHash name % nbucket) →
        l.find? (fun i => symName syms i = name) = none := by
    intro l hl
    rw [List.find?_eq_none]
    intro j hj hname
    exact hl j hj (gnuBucket_of_name (of_decide_eq_true hname))
  unfold lookupSymbolGnu
  simp only [gnuHashOf_nbucket, gnuHashOf_maskwords, gnuHashOf_shift2]
  split_ifs with hbloom hidx
  · -- the Bloom filter rejects the name: no symbol of the table has it
    rw [eq_comm, List.find?_eq_none]
    intro j hj hname
    have hbits := @bloom_mem syms nbucket symndx maskwords shift2 j hj
    rw [gnuHash, of_decide_eq_true hname] at hbits
    exact hbloom.elim hbits.1 hbits.2
  · -- the bucket is empty
    cases hfirst : (List.range' symndx (syms.length - symndx)).find?
        (fun i => gnuBucket syms nbucket i = dlNewHash name % nbucket) with
    | none =>
        rw [List.find?_eq_none] at hfirst
        exact (hnone _ fun j hj hb => hfirst j hj (decide_eq_true hb)).symm
    | some s =>
        have hs := List.find?_range'_eq_some.mp hfirst
        simp only [gnuHashOf, hfirst, Option.getD_some] at hidx
        rw [List.mem_range'_1] at hs
        omega
  · -- the walk starts at the bucket's first symbol `s`
    obtain ⟨s, hfirst⟩ : ∃ s, (List.range' symndx (syms.length - symndx)).find?
        (fun i => gnuBucket syms nbucket i = dlNewHash name % nbucket) = some s := by
      cases hf : (List.range' symndx (syms.length - symndx)).find?
          (fun i => gnuBucket syms nbucket i = dlNewHash name % nbucket) with
      | none => simp [gnuHashOf, hf] at hidx
      | some s => exact ⟨s, rfl⟩
    obtain ⟨hbs, hsmem, hbefore⟩ := List.find?_range'_eq_some.mp hfirst
    rw [List.mem_range'_1] at hsmem
    have hstart : (gnuHashOf syms nbucket symndx maskwords shift2).buckets
        (dlNewHash name % nbucket) = s := by
      simp only [gnuHashOf, hfirst, Option.getD_some]
    rw [hstart, gnuWalk_gnuHashOf hsorted name hsmem.1 (by omega) (by omega)
      (of_decide_eq_true hbs)]
    -- the symbols before `s` are in other buckets
    have hsplit : List.range' symndx (syms.length - symndx) =
        List.range' symndx (s - symndx) ++ List.range' s (syms.length - s) := by
      have happ := List.range'_append_1 (s := symndx) (m := s - symndx) (n := syms.length - s)
      rw [Nat.add_sub_cancel' hsmem.1] at happ
      rw [happ]
      congr 1
      omega
    rw [hsplit, List.find?_append, hnone (List.range' symndx (s - symndx)), Option.none_or]
    intro j hj hb
    rw [List.mem_range'_1] at hj
    simpa [hb] using hbefore j hj.1 (by omega)

end Linker

/-! ## A name defined twice -/

/-- The name `foo`. -/
def foo : SymName := [102, 111, 111]

/-- **Two entries of one name.**  Symbols `1` and `2` are both named `foo`, the linker visiting
`1` first, one bucket in each section: `lookup_symbol_old` returns symbol `2`, and
`lookup_symbol_gnu` symbol `1`. -/
theorem elf_lookup_duplicate_name :
    lookupSymbolOld (sysvHashOf [[], foo, foo] 1 [1, 2]) [[], foo, foo] foo = some 2 ∧
      lookupSymbolGnu (gnuHashOf [[], foo, foo] 1 1 1 6) [[], foo, foo] foo = some 1 := by
  decide

/-! ## The two lookups on distinct names -/

/-- With at most one element satisfying `p`, `find?` returns exactly that element. -/
theorem find?_eq_some_iff_of_unique {α : Type*} {p : α → Bool} {l : List α} {x : α}
    (hu : ∀ a ∈ l, ∀ b ∈ l, p a → p b → a = b) : l.find? p = some x ↔ x ∈ l ∧ p x := by
  constructor
  · intro h
    exact ⟨List.mem_of_find?_eq_some h, List.find?_some h⟩
  · rintro ⟨hx, hp⟩
    obtain ⟨y, hy⟩ := Option.isSome_iff_exists.mp (List.find?_isSome.mpr ⟨x, hx, hp⟩)
    rw [hy, hu y (List.mem_of_find?_eq_some hy) x hx (List.find?_some hy) hp]

section Agree

variable {syms : List SymName}

/-- **`lookup_symbol_old` on distinct names.**  With `DT_HASH` listing each symbol `1 .. n-1`
once, in any order, and those symbols named distinctly, it returns exactly the symbol with the
name. -/
theorem lookupSymbolOld_eq_some {nbucket : ℕ} {order : List ℕ}
    (horder : order.Perm (List.range' 1 (syms.length - 1)))
    (huniq : Set.InjOn (symName syms) (Set.Ico 1 syms.length)) {name : SymName} {i : ℕ} :
    lookupSymbolOld (sysvHashOf syms nbucket order) syms name = some i ↔
      (0 < i ∧ i < syms.length) ∧ symName syms i = name := by
  have hmem : ∀ j, j ∈ order ↔ 0 < j ∧ j < syms.length := by
    intro j
    rw [horder.mem_iff, List.mem_range'_1]
    omega
  have hnd : order.Nodup := horder.nodup_iff.mpr List.nodup_range'
  have h0 : 0 ∉ order := fun h => absurd ((hmem 0).mp h).1 (Nat.lt_irrefl 0)
  have hlen : order.length ≤ syms.length := by
    rw [horder.length_eq, List.length_range']
    omega
  rw [lookupSymbolOld_sysvHashOf hnd h0 hlen, find?_eq_some_iff_of_unique]
  · simp only [List.mem_reverse, List.mem_filter, hmem, decide_eq_true_eq]
    constructor
    · rintro ⟨⟨hi, -⟩, hn⟩
      exact ⟨hi, hn.symm⟩
    · rintro ⟨hi, hn⟩
      exact ⟨⟨hi, by rw [sysvBucket, hn]⟩, hn.symm⟩
  · intro a ha b hb hpa hpb
    simp only [List.mem_reverse, List.mem_filter, hmem] at ha hb
    exact huniq ha.1 hb.1 ((of_decide_eq_true hpa).symm.trans (of_decide_eq_true hpb))

/-- **`lookup_symbol_gnu` on distinct names.**  With the symbols from `symndx` on sorted by
bucket and named distinctly, it returns exactly the symbol from `symndx` on with the name. -/
theorem lookupSymbolGnu_eq_some {nbucket symndx maskwords shift2 : ℕ} (h0 : 0 < symndx)
    (hsorted : MonotoneOn (gnuBucket syms nbucket) (Set.Ico symndx syms.length))
    (huniq : Set.InjOn (symName syms) (Set.Ico 1 syms.length)) {name : SymName} {i : ℕ} :
    lookupSymbolGnu (gnuHashOf syms nbucket symndx maskwords shift2) syms name = some i ↔
      (symndx ≤ i ∧ i < syms.length) ∧ symName syms i = name := by
  rw [lookupSymbolGnu_gnuHashOf h0 hsorted, find?_eq_some_iff_of_unique]
  · simp only [List.mem_range'_1, decide_eq_true_eq]
    constructor <;> rintro ⟨⟨h1, h2⟩, hn⟩ <;> exact ⟨⟨h1, by omega⟩, hn⟩
  · intro a ha b hb hpa hpb
    rw [List.mem_range'_1] at ha hb
    exact huniq ⟨by omega, by omega⟩ ⟨by omega, by omega⟩
      ((of_decide_eq_true hpa).trans (of_decide_eq_true hpb).symm)

/-- **The two lookups agree on distinct names.**  Let `DT_HASH` list each symbol `1 .. n-1` once
and `DT_GNU_HASH` hash the symbols from `symndx > 0` on sorted by bucket, the symbols `1 .. n-1`
being named distinctly.  For a name that no symbol below `symndx` has, `lookup_symbol_old` and
`lookup_symbol_gnu` return the same: the symbol with the name if there is one, else `nullptr`. -/
theorem elf_lookup_agree_unique {nbucket nbucket' symndx maskwords shift2 : ℕ} {order : List ℕ}
    (horder : order.Perm (List.range' 1 (syms.length - 1))) (h0 : 0 < symndx)
    (hsorted : MonotoneOn (gnuBucket syms nbucket') (Set.Ico symndx syms.length))
    (huniq : Set.InjOn (symName syms) (Set.Ico 1 syms.length)) (name : SymName)
    (hlocal : ∀ i, 0 < i → i < symndx → symName syms i ≠ name) :
    lookupSymbolOld (sysvHashOf syms nbucket order) syms name =
        lookupSymbolGnu (gnuHashOf syms nbucket' symndx maskwords shift2) syms name ∧
      ∀ i, lookupSymbolGnu (gnuHashOf syms nbucket' symndx maskwords shift2) syms name = some i ↔
        (0 < i ∧ i < syms.length) ∧ symName syms i = name := by
  have hgnu : ∀ i,
      lookupSymbolGnu (gnuHashOf syms nbucket' symndx maskwords shift2) syms name = some i ↔
        (0 < i ∧ i < syms.length) ∧ symName syms i = name := by
    intro i
    rw [lookupSymbolGnu_eq_some h0 hsorted huniq]
    constructor
    · rintro ⟨⟨h1, h2⟩, hn⟩
      exact ⟨⟨by omega, h2⟩, hn⟩
    · rintro ⟨⟨h1, h2⟩, hn⟩
      -- a symbol below `symndx` does not have the name
      refine ⟨⟨Nat.le_of_not_lt fun hlt => hlocal i h1 hlt hn, h2⟩, hn⟩
  refine ⟨Option.ext fun i => ?_, hgnu⟩
  rw [lookupSymbolOld_eq_some horder huniq, hgnu]

end Agree

/-- The name `bar`. -/
def bar : SymName := [98, 97, 114]

/-- `foo` and `bar` in one bucket of each section, the Bloom filter one word: both lookups
return symbol `1` for `foo`. -/
theorem elf_lookup_agree_foo_bar :
    ([1, 2] : List ℕ).Perm (List.range' 1 ([[], foo, bar].length - 1)) ∧ 0 < 1 ∧
      MonotoneOn (gnuBucket [[], foo, bar] 1) (Set.Ico 1 [[], foo, bar].length) ∧
      Set.InjOn (symName [[], foo, bar]) (Set.Ico 1 [[], foo, bar].length) ∧
      (∀ i, 0 < i → i < 1 → symName [[], foo, bar] i ≠ foo) ∧
      lookupSymbolOld (sysvHashOf [[], foo, bar] 1 [1, 2]) [[], foo, bar] foo =
        lookupSymbolGnu (gnuHashOf [[], foo, bar] 1 1 1 6) [[], foo, bar] foo ∧
      lookupSymbolGnu (gnuHashOf [[], foo, bar] 1 1 1 6) [[], foo, bar] foo = some 1 := by
  have horder : ([1, 2] : List ℕ).Perm (List.range' 1 ([[], foo, bar].length - 1)) :=
    List.Perm.refl _
  have hsorted : MonotoneOn (gnuBucket [[], foo, bar] 1) (Set.Ico 1 [[], foo, bar].length) :=
    fun a _ b _ _ => by simp only [gnuBucket, Nat.mod_one, le_refl]
  have huniq : Set.InjOn (symName [[], foo, bar]) (Set.Ico 1 [[], foo, bar].length) := by
    intro a ha b hb h
    obtain ⟨ha1, ha2⟩ := ha
    obtain ⟨hb1, hb2⟩ := hb
    simp only [List.length_cons, List.length_nil] at ha2 hb2
    interval_cases a <;> interval_cases b <;> first | rfl | exact absurd h (by decide)
  have hlocal : ∀ i, 0 < i → i < 1 → symName [[], foo, bar] i ≠ foo := fun i h1 h2 => by omega
  have hagree := @elf_lookup_agree_unique [[], foo, bar] 1 1 1 1 6 [1, 2]
    horder Nat.zero_lt_one hsorted huniq foo hlocal
  exact ⟨horder, Nat.zero_lt_one, hsorted, huniq, hlocal, hagree.1,
    (hagree.2 1).mpr ⟨⟨Nat.zero_lt_one, by decide⟩, rfl⟩⟩

end Osv.Core
