import Mathlib.Data.List.Perm.Subperm
import Osv.Lib.LinkedList

/-!
# Mbuf chains: m_free, m_freem, m_pullup and m_adj

The mbuf routines the network drivers call (`bsd/sys/kern/uipc_mbuf.c`, `bsd/sys/sys/mbuf.h`),
on a heap of mbufs.

**The model.**  An mbuf is its storage from `m_data` on (`buf`), of which the first `m_len`
bytes are data, whether that storage is a cluster (`M_EXT`), its packet header if it has
`M_PKTHDR`, and `m_next`.  For an mbuf with its own storage, `buf` runs to `&m_dat[MLEN]`.
The heap maps addresses to mbufs.  `m_free` records the address it is called with and leaves
the mbuf as it was: freed memory keeps what it held until it is reused, and code that reads a
freed mbuf reads that.  `MGET` takes a fresh address, so nothing is reused here, and every
mbuf of a chain sits below `nextId`.

**What holds.**  `m_freem` frees the mbufs of a chain, each once, in order (`mFreem_chain`).
-/

namespace Osv.Bsd

open LinkedList

/-- The fields of `m_pkthdr` the drivers read or write. -/
structure PktHdr where
  len : ℕ
  csumFlags : ℕ
  csumData : ℕ
  tsoSegsz : ℕ
  deriving DecidableEq, Repr, Inhabited

/-- An mbuf: the storage from `m_data` on, `m_len`, `M_EXT`, the packet header of an
`M_PKTHDR` mbuf, and `m_next`. -/
structure Mbuf where
  buf : List UInt8
  len : ℕ
  ext : Bool
  pkthdr : Option PktHdr
  next : Option ℕ
  deriving DecidableEq, Repr, Inhabited

namespace Mbuf

/-- `mtod(m, u8 *)[i]`. -/
def byte (m : Mbuf) (i : ℕ) : UInt8 := m.buf.getD i 0

/-- `ntohs` of the 16-bit field at byte `i` of the data. -/
def be16 (m : Mbuf) (i : ℕ) : ℕ := (m.byte i).toNat * 256 + (m.byte (i + 1)).toNat

/-- `m->m_pkthdr`, as code that takes the mbuf to have one reads it. -/
def hdr (m : Mbuf) : PktHdr := m.pkthdr.getD default

/-- `bcopy(src, mtod(m, caddr_t) + m->m_len, count); m->m_len += count`. -/
def append (m : Mbuf) (src : List UInt8) : Mbuf :=
  { m with
    buf := m.buf.take m.len ++ src ++ m.buf.drop (m.len + src.length)
    len := m.len + src.length }

/-- `m->m_len -= count; m->m_data += count`. -/
def advance (m : Mbuf) (count : ℕ) : Mbuf :=
  { m with buf := m.buf.drop count, len := m.len - count }

@[simp] theorem next_append (m : Mbuf) (src : List UInt8) : (m.append src).next = m.next := rfl

@[simp] theorem next_advance (m : Mbuf) (count : ℕ) : (m.advance count).next = m.next := rfl

end Mbuf

/-- The sizes `m_pullup` depends on: `MLEN`, `MHLEN` and `max_protohdr`. -/
structure MbufGeometry where
  mlen : ℕ
  mhlen : ℕ
  maxProtohdr : ℕ
  deriving DecidableEq, Repr

/-- The mbufs by address, the first address `MGET` has not handed out, and every call to
`m_free`, in order. -/
structure MbufHeap where
  store : ℕ → Mbuf
  nextId : ℕ
  frees : List ℕ

namespace MbufHeap

/-- `m->m_next`. -/
def next (h : MbufHeap) (i : ℕ) : Option ℕ := (h.store i).next

/-- A store to the mbuf at `i`. -/
def set (h : MbufHeap) (i : ℕ) (m : Mbuf) : MbufHeap :=
  { h with store := fun j => if j = i then m else h.store j }

variable {h : MbufHeap} {i j : ℕ} {m : Mbuf}

@[simp] theorem store_set_self : (h.set i m).store i = m := by simp [set]

@[simp] theorem store_set_ne (hji : j ≠ i) : (h.set i m).store j = h.store j := by
  simp [set, hji]

/-- A store that keeps the mbuf's length keeps every length. -/
theorem len_set (j : ℕ) (hm : m.len = (h.store i).len) :
    ((h.set i m).store j).len = (h.store j).len := by
  by_cases hji : j = i
  · subst hji
    simp [hm]
  · simp [hji]

@[simp] theorem nextId_set : (h.set i m).nextId = h.nextId := rfl

@[simp] theorem frees_set : (h.set i m).frees = h.frees := rfl

/-- `m_free(m)`: give the mbuf back and return its `m_next`. -/
def mFree (h : MbufHeap) (i : ℕ) : MbufHeap × Option ℕ :=
  ({ h with frees := h.frees ++ [i] }, h.next i)

@[simp] theorem store_mFree : (h.mFree i).1.store = h.store := rfl

@[simp] theorem next_mFree : (h.mFree i).1.next = h.next := rfl

@[simp] theorem nextId_mFree : (h.mFree i).1.nextId = h.nextId := rfl

@[simp] theorem frees_mFree : (h.mFree i).1.frees = h.frees ++ [i] := rfl

@[simp] theorem snd_mFree : (h.mFree i).2 = h.next i := rfl

/-- The loop `while (mb != NULL) mb = m_free(mb)` of `m_freem`, with fuel. -/
def mFreemLoop : ℕ → MbufHeap → Option ℕ → MbufHeap
  | 0, h, _ => h
  | _ + 1, h, none => h
  | fuel + 1, h, some i => mFreemLoop fuel (h.mFree i).1 (h.mFree i).2

/-- `m_freem(mb)`.  A chain of mbufs below `nextId` is at most `nextId` long. -/
def mFreem (h : MbufHeap) (p : Option ℕ) : MbufHeap := mFreemLoop h.nextId h p

/-- Freeing changes no mbuf and allocates none. -/
theorem mFreemLoop_store_nextId : ∀ (fuel : ℕ) (h : MbufHeap) (p : Option ℕ),
    (mFreemLoop fuel h p).store = h.store ∧ (mFreemLoop fuel h p).nextId = h.nextId
  | 0, _, _ => ⟨rfl, rfl⟩
  | _ + 1, _, none => ⟨rfl, rfl⟩
  | fuel + 1, h, some i => mFreemLoop_store_nextId fuel (h.mFree i).1 (h.mFree i).2

@[simp] theorem store_mFreem (p : Option ℕ) : (h.mFreem p).store = h.store :=
  (mFreemLoop_store_nextId _ _ _).1

@[simp] theorem nextId_mFreem (p : Option ℕ) : (h.mFreem p).nextId = h.nextId :=
  (mFreemLoop_store_nextId _ _ _).2

theorem mFreemLoop_chain {l : List ℕ} :
    ∀ {fuel : ℕ} {h : MbufHeap} {p : Option ℕ}, Chain h.next p l → l.length ≤ fuel →
      mFreemLoop fuel h p = { h with frees := h.frees ++ l } := by
  induction l with
  | nil =>
      intro fuel h p hc _
      obtain rfl : p = none := hc.eq_nil_iff.mp rfl
      cases fuel <;> simp [mFreemLoop]
  | cons a l ih =>
      intro fuel h p hc hfuel
      obtain ⟨rfl, hc'⟩ := chain_cons.mp hc
      obtain ⟨fuel, rfl⟩ : ∃ f, fuel = f + 1 := ⟨fuel - 1, by simp at hfuel; omega⟩
      rw [mFreemLoop, ih (by simpa using hc') (by simpa using hfuel)]
      simp

/-- **`m_freem` frees the chain**, each mbuf once, in order. -/
theorem mFreem_chain {l : List ℕ} {p : Option ℕ} (hc : Chain h.next p l)
    (hlt : ∀ i ∈ l, i < h.nextId) : h.mFreem p = { h with frees := h.frees ++ l } := by
  have hsub : l.Subperm (List.range h.nextId) :=
    hc.nodup.subperm fun i hi => List.mem_range.mpr (hlt i hi)
  exact mFreemLoop_chain hc (by simpa using hsub.length_le)

/-! ## m_pullup -/

variable (g : MbufGeometry)

/-- The copy loop `do { … } while (len > 0 && n)` of `m_pullup`, with fuel: from `n` into `m`,
with `len` bytes still wanted and `space` left in `m`.  It returns the heap, the mbuf `n` has
come to, and `len`.  An mbuf it empties it frees. -/
def pullupLoop (m : ℕ) : ℕ → MbufHeap → ℕ → ℕ → ℕ → MbufHeap × Option ℕ × ℕ
  | 0, h, n, len, _ => (h, some n, len)
  | fuel + 1, h, n, len, space =>
      let count := min (min (max len g.maxProtohdr) space) (h.store n).len
      let h₁ := h.set m ((h.store m).append ((h.store n).buf.take count))
      if (h.store n).len - count ≠ 0 then
        let h₂ := h₁.set n ((h.store n).advance count)
        if 0 < len - count then pullupLoop m fuel h₂ n (len - count) (space - count)
        else (h₂, some n, len - count)
      else
        let h₂ := (h₁.set n { h.store n with len := 0 }).mFree n
        match h₂.2 with
        | some n' =>
            if 0 < len - count then pullupLoop m fuel h₂.1 n' (len - count) (space - count)
            else (h₂.1, some n', len - count)
        | none => (h₂.1, none, len - count)

/-- The end of `m_pullup`: with bytes still wanted, `m_free(m)` and `m_freem` of the rest
(`bad:`), and otherwise the rest of the chain hung after `m`. -/
def pullupFinish (m : ℕ) (r : MbufHeap × Option ℕ × ℕ) : MbufHeap × Option ℕ :=
  if 0 < r.2.2 then ((r.1.mFree m).1.mFreem r.2.1, none)
  else (r.1.set m { r.1.store m with next := r.2.1 }, some m)

/-- The branch of `m_pullup` that allocates a new mbuf to prepend to the chain: `MGET`
succeeds when `allocOk`, and `M_MOVE_PKTHDR` moves the packet header to it and starts its data
at `m_pktdat`. -/
def pullupNew (allocOk : Bool) (h : MbufHeap) (n len : ℕ) : MbufHeap × Option ℕ :=
  if g.mhlen < len then (h.mFreem (some n), none)
  else if allocOk then
    let mm : Mbuf := match (h.store n).pkthdr with
      | some ph => ⟨List.replicate g.mhlen 0, 0, false, some ph, none⟩
      | none => ⟨List.replicate g.mlen 0, 0, false, none, none⟩
    let h₁ := ({ h with nextId := h.nextId + 1 }.set h.nextId mm).set n
      { h.store n with pkthdr := none }
    pullupFinish h.nextId (pullupLoop g h.nextId h₁.nextId h₁ n len mm.buf.length)
  else (h.mFreem (some n), none)

/-- `m_pullup(n, len)`: make the first `len` bytes of the chain contiguous in its first mbuf.
The new head, or `none` once the chain is freed. -/
def mPullup (allocOk : Bool) (h : MbufHeap) (n len : ℕ) : MbufHeap × Option ℕ :=
  match (h.store n).next with
  | some n' =>
      if (h.store n).ext = false ∧ len < (h.store n).buf.length then
        if len ≤ (h.store n).len then (h, some n)
        else
          pullupFinish n (pullupLoop g n h.nextId h n' (len - (h.store n).len)
            ((h.store n).buf.length - (h.store n).len))
      else pullupNew g allocOk h n len
  | none => pullupNew g allocOk h n len

/-! ## m_adj -/

/-- The loop of `m_adj` that trims from the head, with fuel: the heap and the bytes it could
not trim. -/
def adjLoop : ℕ → MbufHeap → Option ℕ → ℕ → MbufHeap × ℕ
  | 0, h, _, len => (h, len)
  | _ + 1, h, none, len => (h, len)
  | fuel + 1, h, some i, len =>
      if 0 < len then
        if (h.store i).len ≤ len then
          adjLoop fuel (h.set i { h.store i with len := 0 }) (h.store i).next
            (len - (h.store i).len)
        else (h.set i ((h.store i).advance len), 0)
      else (h, len)

/-- `m_adj(mp, req_len)` for `req_len ≥ 0`: trim `req_len` bytes from the head of the chain. -/
def mAdj (h : MbufHeap) (mp reqLen : ℕ) : MbufHeap :=
  let r := adjLoop h.nextId h (some mp) reqLen
  match (r.1.store mp).pkthdr with
  | some ph => r.1.set mp { r.1.store mp with pkthdr := some { ph with len := ph.len - (reqLen - r.2) } }
  | none => r.1

theorem adjLoop_zero : ∀ (fuel : ℕ) (h : MbufHeap) (p : Option ℕ), adjLoop fuel h p 0 = (h, 0)
  | 0, _, _ => rfl
  | _ + 1, _, none => rfl
  | _ + 1, _, some _ => rfl

/-- **`m_adj` trims the head.**  When the head holds the bytes to trim, it loses exactly those:
its `m_len` comes down by `req_len`, whatever it was. -/
theorem mAdj_len_head {h : MbufHeap} {mp reqLen : ℕ} (hmp : mp < h.nextId)
    (hlen : reqLen ≤ (h.store mp).len) :
    ((h.mAdj mp reqLen).store mp).len = (h.store mp).len - reqLen := by
  obtain ⟨fuel, hfuel⟩ : ∃ f, h.nextId = f + 1 := ⟨h.nextId - 1, by omega⟩
  -- the loop trims the head and stops there, having nothing left to trim
  have hloop :
      ((adjLoop h.nextId h (some mp) reqLen).1.store mp).len = (h.store mp).len - reqLen := by
    rw [hfuel, adjLoop]
    by_cases hpos : 0 < reqLen
    · rw [if_pos hpos]
      by_cases hall : (h.store mp).len ≤ reqLen
      · rw [if_pos hall]
        simp only [show reqLen - (h.store mp).len = 0 by omega, adjLoop_zero, store_set_self]
        omega
      · rw [if_neg hall]
        simp [Mbuf.advance]
    · rw [if_neg hpos]
      dsimp only
      omega
  unfold mAdj
  dsimp only
  split
  · rw [store_set_self]
    exact hloop
  · exact hloop

end MbufHeap

end Osv.Bsd
