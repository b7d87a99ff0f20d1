import Mathlib.Algebra.BigOperators.Group.List.Basic
import Osv.Core.Elf

/-!
# `dladdr`: from an address to a symbol

`object::lookup_addr(addr)` (`core/elf.cc`) answers `dladdr` and the backtraces.  For an
address inside the object, `[_base, _end)`, it scans the dynamic symbol table from index `1` to
`symtab_len()`, keeps the global or weak data objects and functions, and returns the best of
them; `program::lookup_addr` asks each module in turn and returns the first answer.
`symtab_len()` reads `nchain` from `DT_HASH` when the object has that section, and otherwise
counts, bucket by bucket, the chain words of `DT_GNU_HASH` up to the one whose low bit ends the
bucket.

A symbol is its `st_info`, `st_shndx` and `st_value`; its name is not read.  An answer is the
index of the symbol found and its relocated address, or `none` for the zeroed `dladdr_info`.

**What `lookup_addr` returns** (`lookupAddr_spec`): among the scanned symbols at or *above*
`addr`, one with the least address; `none` when every scanned symbol lies below `addr`.  The
loop skips the symbols below the address and keeps the lowest of the rest, so it names the
symbol after `addr`, not the one that encloses it.

**What `symtab_len` counts** (`gnuSymtabLen_gnuHashOf`): on the linker's `DT_GNU_HASH`, the
symbols from `symndx` on, so the loop of `lookup_addr` never reaches the last `symndx` entries
of the table.

Both show on a table of two functions (`elf_lookup_addr_symbol_after`).
-/

namespace Osv.Core

/-- An entry of the dynamic symbol table as `lookup_addr` reads it.  The default is the null
entry `symtab[0]`. -/
structure Sym where
  /-- `st_info`: the binding in the high four bits, the type in the low four -/
  info : ℕ
  /-- `st_shndx` -/
  shndx : ℕ
  /-- `st_value` -/
  value : ℕ
  deriving DecidableEq, Repr, Inhabited

/-- `STT_OBJECT` -/
def sttObject : ℕ := 1

/-- `STT_FUNC` -/
def sttFunc : ℕ := 2

/-- `STB_GLOBAL` -/
def stbGlobal : ℕ := 1

/-- `STB_WEAK` -/
def stbWeak : ℕ := 2

/-- `SHN_UNDEF` -/
def shnUndef : ℕ := 0

/-- `SHN_ABS` -/
def shnAbs : ℕ := 0xFFF1

/-- `symbol_module::relocated_addr()` of an `STT_OBJECT` or `STT_FUNC` symbol of the object
loaded at `base`: undefined and absolute symbols are not relocated. -/
def relocatedAddr (base : ℕ) (sym : Sym) : ℕ :=
  (if sym.shndx = shnUndef ∨ sym.shndx = shnAbs then 0 else base) + sym.value

/-- The two tests of `lookup_addr`'s loop: the type is `STT_OBJECT` or `STT_FUNC`, the binding
`STB_GLOBAL` or `STB_WEAK`. -/
def Sym.isCandidate (sym : Sym) : Bool :=
  (sym.info &&& 15 = sttObject || sym.info &&& 15 = sttFunc) &&
    ((sym.info >>> 4) &&& 15 = stbGlobal || (sym.info >>> 4) &&& 15 = stbWeak)

/-- The section `symtab_len` counts from: `DT_HASH` when the object has one, with its `nchain`;
otherwise `DT_GNU_HASH`. -/
inductive SymtabHash where
  | hash (nchain : ℕ)
  | gnu (t : GnuHash)

/-- A loaded object as `lookup_addr` sees it. -/
structure Object where
  /-- `_base` -/
  base : ℕ
  /-- `_end` -/
  endAddr : ℕ
  /-- the entries of `DT_SYMTAB` -/
  symtab : List Sym
  /-- the hash section `symtab_len` reads -/
  hash : SymtabHash

/-! ## `symtab_len` -/

/-- The `do { ++len; } while ((chains[idx++] & 1) == 0)` loop of `symtab_len` from `idx`, with
`fuel` turns left. -/
def gnuChainLen (t : GnuHash) : ℕ → ℕ → ℕ
  | 0, _ => 0
  | fuel + 1, idx =>
      if t.chains (idx - t.symndx) % 2 = 0 then gnuChainLen t fuel (idx + 1) + 1 else 1

/-- The `DT_GNU_HASH` branch of `symtab_len`: the chain lengths of the non-empty buckets. -/
def gnuSymtabLen (t : GnuHash) (fuel : ℕ) : ℕ :=
  ((List.range t.nbucket).map fun b =>
    if t.buckets b = 0 then 0 else gnuChainLen t fuel (t.buckets b)).sum

/-- `object::symtab_len()`.  The walk over a chain takes the number of entries as fuel, which
bounds every chain of a well-formed section. -/
def Object.symtabLen (o : Object) : ℕ :=
  match o.hash with
  | .hash nchain => nchain
  | .gnu t => gnuSymtabLen t o.symtab.length

/-! ## `lookup_addr` -/

/-- One turn of the loop of `lookup_addr`, over symbol `i`: `best` is the index and address of
the symbol kept so far. -/
def lookupAddrStep (base addr : ℕ) (symtab : List Sym) (best : Option (ℕ × ℕ)) (i : ℕ) :
    Option (ℕ × ℕ) :=
  let sym := symtab.getD i default
  if !sym.isCandidate then best
  else if relocatedAddr base sym < addr then best
  else match best with
    | none => some (i, relocatedAddr base sym)
    | some (j, a) => if relocatedAddr base sym < a then some (i, relocatedAddr base sym)
        else some (j, a)

/-- `object::lookup_addr(addr)`: the index and relocated address of the symbol it names. -/
def Object.lookupAddr (o : Object) (addr : ℕ) : Option (ℕ × ℕ) :=
  if addr < o.base ∨ addr ≥ o.endAddr then none
  else (List.range' 1 (o.symtabLen - 1)).foldl (lookupAddrStep o.base addr o.symtab) none

/-- `program::lookup_addr(addr)`: the answer of the first module that has one. -/
def programLookupAddr (modules : List Object) (addr : ℕ) : Option (ℕ × ℕ) :=
  modules.findSome? fun m => m.lookupAddr addr

/-! ## What the loop keeps -/

section Loop

variable {base addr : ℕ} {symtab : List Sym}

/-- A symbol the loop may keep: a candidate at or above `addr`. -/
def Kept (base addr : ℕ) (symtab : List Sym) (i : ℕ) : Prop :=
  (symtab.getD i default).isCandidate = true ∧ addr ≤ relocatedAddr base (symtab.getD i default)

/-- What the loop has kept after the indices `l`: the least address among the kept symbols of
`l`, or nothing when `l` has none. -/
def BestOf (base addr : ℕ) (symtab : List Sym) (l : List ℕ) : Option (ℕ × ℕ) → Prop
  | none => ∀ i ∈ l, ¬ Kept base addr symtab i
  | some (i, a) => i ∈ l ∧ Kept base addr symtab i ∧ a = relocatedAddr base (symtab.getD i default) ∧
      ∀ j ∈ l, Kept base addr symtab j → a ≤ relocatedAddr base (symtab.getD j default)

/-- **One turn of the loop.**  Adding index `i` keeps the best of what was seen. -/
theorem bestOf_step {l : List ℕ} {best : Option (ℕ × ℕ)} (h : BestOf base addr symtab l best)
    (i : ℕ) : BestOf base addr symtab (l ++ [i]) (lookupAddrStep base addr symtab best i) := by
  by_cases hk : Kept base addr symtab i
  · obtain ⟨hc, ha⟩ := hk
    have hnlt : ¬ relocatedAddr base (symtab.getD i default) < addr := Nat.not_lt.mpr ha
    cases best with
    | none =>
        simp only [lookupAddrStep, hc, Bool.not_true, Bool.false_eq_true, if_false, hnlt]
        refine ⟨List.mem_append_right l (List.mem_singleton_self i), ⟨hc, ha⟩, rfl, ?_⟩
        intro j hj hkj
        rcases List.mem_append.mp hj with hj | hj
        · exact absurd hkj (h j hj)
        · rw [List.mem_singleton.mp hj]
    | some p =>
        obtain ⟨j, a⟩ := p
        obtain ⟨hj, hkj, rfl, hmin⟩ := h
        simp only [lookupAddrStep, hc, Bool.not_true, Bool.false_eq_true, if_false, hnlt]
        split_ifs with hlt
        · refine ⟨List.mem_append_right l (List.mem_singleton_self i), ⟨hc, ha⟩, rfl, ?_⟩
          intro k hk hkk
          rcases List.mem_append.mp hk with hk | hk
          · exact le_trans (Nat.le_of_lt hlt) (hmin k hk hkk)
          · rw [List.mem_singleton.mp hk]
        · refine ⟨List.mem_append_left [i] hj, hkj, rfl, ?_⟩
          intro k hk hkk
          rcases List.mem_append.mp hk with hk | hk
          · exact hmin k hk hkk
          · rw [List.mem_singleton.mp hk]
            exact Nat.not_lt.mp hlt
  · -- a symbol the loop skips leaves `best` as it was
    have hskip : lookupAddrStep base addr symtab best i = best := by
      unfold Kept at hk
      by_cases hc : (symtab.getD i default).isCandidate = true
      · have hlt : relocatedAddr base (symtab.getD i default) < addr :=
          Nat.lt_of_not_le fun ha => hk ⟨hc, ha⟩
        simp only [lookupAddrStep, hc, Bool.not_true, Bool.false_eq_true, if_false, hlt, if_true]
      · rw [Bool.not_eq_true] at hc
        simp only [lookupAddrStep, hc, Bool.not_false, if_true]
    rw [hskip]
    cases best with
    | none =>
        intro j hj
        rcases List.mem_append.mp hj with hj | hj
        · exact h j hj
        · rw [List.mem_singleton.mp hj]; exact hk
    | some p =>
        obtain ⟨j, a⟩ := p
        obtain ⟨hj, hkj, ha, hmin⟩ := h
        refine ⟨List.mem_append_left [i] hj, hkj, ha, ?_⟩
        intro k hk' hkk
        rcases List.mem_append.mp hk' with hk' | hk'
        · exact hmin k hk' hkk
        · exact absurd (List.mem_singleton.mp hk' ▸ hkk) hk

/-- **The whole loop**, by induction on the indices from the right, one turn a step. -/
theorem bestOf_foldl (l : List ℕ) :
    BestOf base addr symtab l (l.foldl (lookupAddrStep base addr symtab) none) := by
  induction l using List.reverseRecOn with
  | nil => intro i hi; cases hi
  | append_singleton l i ih =>
      rw [List.foldl_append, List.foldl_cons, List.foldl_nil]
      exact bestOf_step ih i

end Loop

/-- **What `lookup_addr` returns.**  For an address inside the object, the symbol named has
the least address at or above `addr` among the scanned global or weak data objects and
functions, and there is no answer when all of them lie below `addr`. -/
theorem lookupAddr_spec (o : Object) {addr : ℕ} (hlo : o.base ≤ addr) (hhi : addr < o.endAddr) :
    BestOf o.base addr o.symtab (List.range' 1 (o.symtabLen - 1)) (o.lookupAddr addr) := by
  rw [Object.lookupAddr, if_neg (by omega)]
  exact bestOf_foldl _

/-- Outside `[_base, _end)` there is no answer. -/
theorem lookupAddr_outside (o : Object) {addr : ℕ} (h : addr < o.base ∨ o.endAddr ≤ addr) :
    o.lookupAddr addr = none :=
  if_pos h

/-- **`program::lookup_addr`.**  With the modules' ranges apart, the program answers for an
address what the module holding it answers. -/
theorem programLookupAddr_eq {modules : List Object} {m : Object} (hm : m ∈ modules) {addr : ℕ}
    (hin : m.base ≤ addr ∧ addr < m.endAddr)
    (hapart : ∀ m' ∈ modules, m'.base ≤ addr → addr < m'.endAddr → m' = m) :
    programLookupAddr modules addr = m.lookupAddr addr := by
  have hnone : ∀ m' ∈ modules, m' ≠ m → m'.lookupAddr addr = none := fun m' hm' hne =>
    lookupAddr_outside m' (by
      by_contra hc
      exact hne (hapart m' hm' (by omega) (by omega)))
  unfold programLookupAddr
  induction modules with
  | nil => cases hm
  | cons m' rest ih =>
      rw [List.findSome?_cons]
      by_cases he : m' = m
      · subst he
        cases hr : m'.lookupAddr addr with
        | some r => rfl
        | none =>
            -- no later module holds the address either
            rw [List.findSome?_eq_none_iff.mpr fun m'' hm'' => ?_]
            by_cases he' : m'' = m'
            · rw [he', hr]
            · exact hnone m'' (List.mem_cons_of_mem _ hm'') he'
      · rw [hnone m' List.mem_cons_self he]
        exact ih (List.mem_of_ne_of_mem (Ne.symm he) hm)
          (fun m'' hm'' => hapart m'' (List.mem_cons_of_mem _ hm''))
          (fun m'' hm'' => hnone m'' (List.mem_cons_of_mem _ hm''))

/-! ## `symtab_len` on the linker's `DT_GNU_HASH` -/

/-- The lengths of the filters of `l` by the values of `f` below `n` add up to the length
of `l`. -/
theorem sum_length_filter_eq {α : Type*} (f : α → ℕ) {n : ℕ} :
    ∀ l : List α, (∀ x ∈ l, f x < n) →
      ((List.range n).map fun b => (l.filter fun x => f x = b).length).sum = l.length
  | [], _ => by simp
  | x :: l, h => by
      have ih := sum_length_filter_eq f l fun y hy => h y (List.mem_cons_of_mem x hy)
      have hone : ((List.range n).map fun b => if f x = b then 1 else 0).sum = 1 := by
        rw [List.sum_map_eq_nsmul_single (f x) _ fun b hb _ => if_neg (Ne.symm hb),
          List.count_eq_one_of_mem List.nodup_range (List.mem_range.mpr (h x List.mem_cons_self))]
        simp
      have hmap : ((List.range n).map fun b => ((x :: l).filter fun x => f x = b).length) =
          (List.range n).map fun b =>
            (if f x = b then 1 else 0) + (l.filter fun x => f x = b).length := by
        apply List.map_congr_left
        intro b _
        by_cases hb : f x = b <;> simp [hb, Nat.add_comm]
      rw [hmap, List.sum_map_add, ih, hone, List.length_cons, Nat.add_comm]

section Linker

variable {syms : List SymName} {nbucket symndx maskwords shift2 : ℕ}

/-- **A bucket's chain.**  From a symbol, the symbols from `symndx` on sorted by bucket, the
loop of `symtab_len` counts the symbols of its bucket from there on: it stops at the bucket's
last chain word, and past that no symbol is in the bucket. -/
theorem gnuChainLen_gnuHashOf
    (hsorted : MonotoneOn (gnuBucket syms nbucket) (Set.Ico symndx syms.length)) {fuel : ℕ} :
    ∀ {idx : ℕ}, symndx ≤ idx → idx < syms.length → syms.length ≤ idx + fuel →
      gnuChainLen (gnuHashOf syms nbucket symndx maskwords shift2) fuel idx =
        ((List.range' idx (syms.length - idx)).filter
          fun j => gnuBucket syms nbucket j = gnuBucket syms nbucket idx).length := by
  -- induction on the fuel, one symbol of the bucket a turn
  induction fuel with
  | zero => intro idx _ hn hfuel; omega
  | succ fuel ih =>
      intro idx hs hn hfuel
      have hrange : List.range' idx (syms.length - idx) =
          idx :: List.range' (idx + 1) (syms.length - (idx + 1)) := by
        rw [show syms.length - idx = syms.length - (idx + 1) + 1 by omega]
        rfl
      rw [hrange, List.filter_cons_of_pos (by simp), List.length_cons, gnuChainLen,
        gnuHashOf_symndx, gnuHashOf_chains hs]
      by_cases hlast : idx + 1 = syms.length ∨
          gnuBucket syms nbucket (idx + 1) ≠ gnuBucket syms nbucket idx
      · -- the bucket's last symbol
        rw [if_pos hlast, if_neg (by omega), List.filter_eq_nil_iff.mpr, List.length_nil]
        intro j hj
        rw [List.mem_range'_1] at hj
        simpa using gnuBucket_ne_of_last hsorted hs hlast hj.1 (by omega)
      · rw [not_or, not_not] at hlast
        rw [if_neg (not_or.mpr ⟨hlast.1, not_not.mpr hlast.2⟩), Nat.add_zero, if_pos (by omega),
          ih (by omega) (by omega) (by omega), hlast.2]

/-- **`symtab_len` counts the hashed symbols.**  On the linker's `DT_GNU_HASH`, `symndx > 0`
and the symbols from it on sorted by bucket, `symtab_len()` is the number of symbols from
`symndx` on, not the size of the table. -/
theorem gnuSymtabLen_gnuHashOf (h0 : 0 < symndx) (hb : 0 < nbucket)
    (hsorted : MonotoneOn (gnuBucket syms nbucket) (Set.Ico symndx syms.length)) :
    gnuSymtabLen (gnuHashOf syms nbucket symndx maskwords shift2) syms.length =
      syms.length - symndx := by
  -- each non-empty bucket contributes the number of its symbols
  have hbucket : ∀ b, (if (gnuHashOf syms nbucket symndx maskwords shift2).buckets b = 0 then 0
      else gnuChainLen (gnuHashOf syms nbucket symndx maskwords shift2) syms.length
        ((gnuHashOf syms nbucket symndx maskwords shift2).buckets b)) =
      ((List.range' symndx (syms.length - symndx)).filter
        fun j => gnuBucket syms nbucket j = b).length := by
    intro b
    cases hfirst : (List.range' symndx (syms.length - symndx)).find?
        (fun i => gnuBucket syms nbucket i = b) with
    | none =>
        -- an empty bucket
        have hzero : (gnuHashOf syms nbucket symndx maskwords shift2).buckets b = 0 := by
          simp only [gnuHashOf, hfirst, Option.getD_none]
        rw [if_pos hzero, eq_comm, List.length_eq_zero_iff, List.filter_eq_nil_iff]
        exact fun j hj hbj => List.find?_eq_none.mp hfirst j hj hbj
    | some s =>
        obtain ⟨hbs, hsmem, hbefore⟩ := List.find?_range'_eq_some.mp hfirst
        rw [List.mem_range'_1] at hsmem
        have hstart : (gnuHashOf syms nbucket symndx maskwords shift2).buckets b = s := by
          simp only [gnuHashOf, hfirst, Option.getD_some]
        have hbs' : gnuBucket syms nbucket s = b := of_decide_eq_true hbs
        rw [hstart, if_neg (by omega), gnuChainLen_gnuHashOf hsorted hsmem.1 (by omega)
          (by omega), hbs']
        -- the symbols before `s` are in other buckets
        have hsplit : List.range' symndx (syms.length - symndx) =
            List.range' symndx (s - symndx) ++ List.range' s (syms.length - s) := by
          have happ := List.range'_append_1 (s := symndx) (m := s - symndx) (n := syms.length - s)
          rw [Nat.add_sub_cancel' hsmem.1] at happ
          rw [happ]
          congr 1
          omega
        have hnil : ((List.range' symndx (s - symndx)).filter
            fun j => gnuBucket syms nbucket j = b) = [] := by
          rw [List.filter_eq_nil_iff]
          intro j hj
          rw [List.mem_range'_1] at hj
          simpa using hbefore j hj.1 (by omega)
        rw [hsplit, List.filter_append, List.length_append, hnil, List.length_nil, Nat.zero_add]
  unfold gnuSymtabLen
  rw [gnuHashOf_nbucket, List.map_congr_left fun b _ => hbucket b,
    sum_length_filter_eq (gnuBucket syms nbucket) _ fun j _ => Nat.mod_lt _ hb, List.length_range']

end Linker

/-! ## Two functions -/

/-- `st_info` of a global function, `(STB_GLOBAL << 4) | STT_FUNC`. -/
def globalFunc : ℕ := 18

/-- A table of two global functions of section `1`, `foo` at `0x1000` and `bar` at `0x2000`. -/
def twoFuncs : List Sym := [default, ⟨globalFunc, 1, 0x1000⟩, ⟨globalFunc, 1, 0x2000⟩]

/-- **`lookup_addr` names the symbol after the address, and misses the last entries.**  The
object at `0x400000` with the table `twoFuncs`.  With `DT_HASH`, the address `0x401800`, inside
`foo` and below `bar`, is answered with `bar`.  With the linker's `DT_GNU_HASH`, `symndx` being
`1`, `symtab_len()` is `2` for three entries, and the address of `bar` itself has no answer. -/
theorem elf_lookup_addr_symbol_after :
    (⟨0x400000, 0x410000, twoFuncs, .hash 3⟩ : Object).lookupAddr 0x401800 = some (2, 0x402000) ∧
      relocatedAddr 0x400000 (twoFuncs.getD 1 default) ≤ 0x401800 ∧
      (⟨0x400000, 0x410000, twoFuncs, .gnu (gnuHashOf [[], foo, bar] 1 1 1 6)⟩ : Object).symtabLen =
        2 ∧
      (⟨0x400000, 0x410000, twoFuncs, .gnu (gnuHashOf [[], foo, bar] 1 1 1 6)⟩ : Object).lookupAddr
        0x402000 = none ∧
      relocatedAddr 0x400000 (twoFuncs.getD 2 default) = 0x402000 := by
  decide

end Osv.Core
