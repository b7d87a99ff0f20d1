import Mathlib.Data.List.Perm.Basic
import Mathlib.Tactic.IntervalCases
import Osv.Drivers.Vring

/-!
# Every run of the virtio ring keeps its descriptors

The descriptors of a reachable state split into the free list and the chains of the buffers
published and not yet reclaimed (`Inv.partition`): the heads in the available ring the host has
not taken (`Sys.unfetched`), those it holds (`Host.taken`), and those it returned that
`get_buf_gc` has not put back (`Sys.unreclaimed`).  `Inv` also says that every such chain is
marked as the host follows it, that `_used_ring_host_head` lies between
`_used_ring_guest_head` and `_used->_idx`, and that `_avail_added_since_kick` counts the
buffers published since the last notification, modulo `2 ^ 16`.

One lemma per call says how it moves the lists: `get_buf_gc` moves each chain it reads from
the used ring to the front of the free list (`Inv.gcOne`), `add_buf` moves the front of the
free list to the available ring (`Inv.publish`), and the host moves heads from the available
ring to the used ring.  The ring positions are `u16` counters: `_num` divides `2 ^ 16`, so they
address the rings consistently across the wrap.
-/

namespace Osv.Drivers

open Threaded

namespace Vring

variable {num : ℕ} [NeZero num]

/-! ## Flags -/

theorem has_next_or (f n : UInt16) :
    (⟨VRING_DESC_F_NEXT ||| f, n⟩ : VringDesc).has VRING_DESC_F_NEXT = true := by
  have hbit : (1 ||| f) &&& 1 = 1 := by
    apply UInt16.toBitVec_inj.mp
    ext i hi
    simp only [UInt16.toBitVec_and, UInt16.toBitVec_or, UInt16.toBitVec_one, BitVec.getElem_and,
      BitVec.getElem_or, BitVec.getElem_one]
    by_cases h0 : i = 0 <;> simp [h0]
  simp only [VringDesc.has, VRING_DESC_F_NEXT, hbit]
  decide

theorem has_indirect_next_or (f n : UInt16) :
    (⟨VRING_DESC_F_NEXT ||| f, n⟩ : VringDesc).has VRING_DESC_F_INDIRECT =
      (f &&& VRING_DESC_F_INDIRECT != 0) := by
  have hbit : (1 ||| f) &&& 4 = f &&& 4 := by
    apply UInt16.toBitVec_inj.mp
    ext i hi
    simp
    interval_cases i <;> simp
  simp only [VringDesc.has, VRING_DESC_F_NEXT, VRING_DESC_F_INDIRECT, hbit]

theorem has_next_clear (d : VringDesc) :
    ({ d with flags := d.flags &&& ~~~VRING_DESC_F_NEXT } : VringDesc).has VRING_DESC_F_NEXT = false := by
  have hbit : d.flags &&& ~~~1 &&& 1 = 0 := by
    apply UInt16.toBitVec_inj.mp
    ext i hi
    simp
    interval_cases i <;> simp
  simp only [VringDesc.has, VRING_DESC_F_NEXT, hbit]
  decide

theorem has_indirect_clear (d : VringDesc) :
    ({ d with flags := d.flags &&& ~~~VRING_DESC_F_NEXT } : VringDesc).has VRING_DESC_F_INDIRECT =
      d.has VRING_DESC_F_INDIRECT := by
  have hbit : d.flags &&& ~~~1 &&& 4 = d.flags &&& 4 := by
    apply UInt16.toBitVec_inj.mp
    ext i hi
    simp
    interval_cases i <;> simp
  simp only [VringDesc.has, VRING_DESC_F_NEXT, VRING_DESC_F_INDIRECT, hbit]

/-! ## Links and marks under a write -/

omit [NeZero num] in
theorem nextOf_update_next (desc : ℕ → VringDesc) (i : ℕ) (v : UInt16) :
    nextOf (Function.update desc i { desc i with next := v }) = Function.update (nextOf desc) i v.toNat := by
  funext j
  by_cases h : j = i
  · subst h
    simp only [nextOf, Function.update_self]
  · simp only [nextOf, Function.update_of_ne h]

omit [NeZero num] in
theorem nextOf_update_flags (desc : ℕ → VringDesc) (i : ℕ) (f : UInt16) :
    nextOf (Function.update desc i { desc i with flags := f }) = nextOf desc := by
  funext j
  by_cases h : j = i
  · subst h
    simp only [nextOf, Function.update_self]
  · simp only [nextOf, Function.update_of_ne h]

/-! ## The loops of `get_buf_gc` and `add_buf` -/

omit [NeZero num] in
/-- The inner loop of `get_buf_gc` ends at the last descriptor of the chain, having counted
them all. -/
theorem chainEnd_of_isChain {desc : ℕ → VringDesc} {p : ℕ} {l : List ℕ}
    (h : IsChain (moreOf desc) (nextOf desc) p l) :
    ∀ {fuel i : ℕ}, l.length ≤ fuel + 1 → chainEnd desc fuel p i = (l.getLast h.ne_nil, i + l.length - 1) := by
  induction h with
  | @last p hp =>
      intro fuel i _
      cases fuel with
      | zero => simp only [chainEnd, List.getLast_singleton, List.length_singleton, Nat.add_sub_cancel]
      | succ fuel =>
          rw [moreOf] at hp
          simp only [chainEnd, hp, Bool.false_eq_true, if_false, List.getLast_singleton,
            List.length_singleton, Nat.add_sub_cancel]
  | @cons p l hp hl ih =>
      intro fuel i hfuel
      have hpos := List.length_pos_iff.mpr hl.ne_nil
      rw [List.length_cons] at hfuel
      obtain ⟨fuel, rfl⟩ : ∃ f, fuel = f + 1 := ⟨fuel - 1, by omega⟩
      rw [moreOf] at hp
      rw [chainEnd, if_pos hp, ← nextOf, ih (by omega), List.getLast_cons hl.ne_nil, List.length_cons]
      congr 1
      omega

omit [NeZero num] in
/-- **The loop of `add_buf`** marks the `sgs.length` descriptors of the walk from `idx`, keeps
every link, and stops after them. -/
theorem fillLoop_spec :
    ∀ (desc : ℕ → VringDesc) (sgs : List SgNode) (prev : Option ℕ) (idx : ℕ),
      (walk (nextOf desc) idx sgs.length).Nodup →
      (∀ sg ∈ sgs, sg.flags &&& VRING_DESC_F_INDIRECT = 0) →
      nextOf (fillLoop desc sgs prev idx).1 = nextOf desc ∧
      (∀ i ∉ walk (nextOf desc) idx sgs.length, (fillLoop desc sgs prev idx).1 i = desc i) ∧
      (∀ i ∈ walk (nextOf desc) idx sgs.length, moreOf (fillLoop desc sgs prev idx).1 i = true ∧
        ((fillLoop desc sgs prev idx).1 i).has VRING_DESC_F_INDIRECT = false) ∧
      (fillLoop desc sgs prev idx).2.1 =
        (if sgs = [] then prev else some ((nextOf desc)^[sgs.length - 1] idx)) ∧
      (fillLoop desc sgs prev idx).2.2 = (nextOf desc)^[sgs.length] idx
  | desc, [], prev, idx, _, _ => by
      refine ⟨rfl, fun _ _ => rfl, fun i hi => absurd hi (List.not_mem_nil), if_pos rfl ▸ rfl, rfl⟩
  | desc, sg :: sgs, prev, idx, hnd, hdir => by
      rw [List.length_cons, walk_succ, List.nodup_cons] at hnd
      set desc₁ := Function.update desc idx { desc idx with flags := VRING_DESC_F_NEXT ||| sg.flags }
      have hnext : nextOf desc₁ = nextOf desc := nextOf_update_flags desc idx _
      have hidx : (desc idx).next.toNat = nextOf desc idx := rfl
      have hfill : fillLoop desc (sg :: sgs) prev idx = fillLoop desc₁ sgs (some idx) (nextOf desc idx) :=
        by rw [fillLoop, hidx]
      obtain ⟨ih1, ih2, ih3, ih4, ih5⟩ := fillLoop_spec desc₁ sgs (some idx) (nextOf desc idx)
        (by rw [hnext]; exact hnd.2) (fun sg' hsg' => hdir sg' (List.mem_cons_of_mem _ hsg'))
      rw [hnext] at ih2 ih3 ih4 ih5
      rw [hfill, List.length_cons, walk_succ]
      refine ⟨ih1.trans hnext, fun i hi => ?_, fun i hi => ?_, ?_, ?_⟩
      · -- off the walk: untouched
        rw [List.mem_cons, not_or] at hi
        rw [ih2 i hi.2]
        exact Function.update_of_ne hi.1 _ _
      · rcases List.mem_cons.mp hi with rfl | hi
        · -- the head of the walk: marked by this turn, kept by the later ones
          have hd : (fillLoop desc₁ sgs (some i) (nextOf desc i)).1 i =
              ⟨VRING_DESC_F_NEXT ||| sg.flags, (desc i).next⟩ :=
            (ih2 _ hnd.1).trans (Function.update_self _ _ _)
          rw [moreOf, hd, has_next_or, has_indirect_next_or, hdir sg List.mem_cons_self]
          decide
        · exact ih3 i hi
      · rw [ih4, if_neg (List.cons_ne_nil sg sgs)]
        cases sgs with
        | nil => rfl
        | cons _ _ =>
            rw [if_neg (List.cons_ne_nil _ _)]
            simp only [List.length_cons, Nat.add_sub_cancel, Function.iterate_succ_apply]
      · rw [ih5, Function.iterate_succ_apply]

omit [NeZero num] in
/-- **`add_buf` builds a chain.**  The first `sgs.length` descriptors of the free list become
the chain from `_avail_head`, marked as the host follows it; nothing else changes, no link
changes, and the new `_avail_head` is the descriptor after them. -/
theorem fillChain_spec {r : Vring num} {sgs : List SgNode} (hne : sgs ≠ [])
    (hnd : (walk (nextOf r.desc) r.availHead.toNat sgs.length).Nodup)
    (hdir : ∀ sg ∈ sgs, sg.flags &&& VRING_DESC_F_INDIRECT = 0) :
    nextOf (fillChain r sgs false).1 = nextOf r.desc ∧
      (∀ i ∉ walk (nextOf r.desc) r.availHead.toNat sgs.length, (fillChain r sgs false).1 i = r.desc i) ∧
      IsChain (moreOf (fillChain r sgs false).1) (nextOf r.desc) r.availHead.toNat
        (walk (nextOf r.desc) r.availHead.toNat sgs.length) ∧
      (∀ i ∈ walk (nextOf r.desc) r.availHead.toNat sgs.length,
        ((fillChain r sgs false).1 i).has VRING_DESC_F_INDIRECT = false) ∧
      (fillChain r sgs false).2 = (nextOf r.desc)^[sgs.length] r.availHead.toNat := by
  obtain ⟨m, hm⟩ : ∃ m, sgs.length = m + 1 := ⟨sgs.length - 1, by
    have := List.length_pos_iff.mpr hne
    omega⟩
  obtain ⟨h1, h2, h3, h4, h5⟩ := fillLoop_spec r.desc sgs none r.availHead.toNat hnd hdir
  rw [if_neg hne, hm, Nat.add_sub_cancel] at h4
  -- the last descriptor of the chain, whose `VRING_DESC_F_NEXT` is cleared
  set last := (nextOf r.desc)^[m] r.availHead.toNat
  have hsplit : walk (nextOf r.desc) r.availHead.toNat sgs.length =
      walk (nextOf r.desc) r.availHead.toNat m ++ [last] := by
    rw [hm, walk_succ_right]
  have hlast : last ∉ walk (nextOf r.desc) r.availHead.toNat m := by
    rw [hsplit] at hnd
    exact fun h => List.disjoint_of_nodup_append hnd h (List.mem_singleton_self last)
  have hmem : last ∈ walk (nextOf r.desc) r.availHead.toNat sgs.length := by
    rw [hsplit]
    exact List.mem_append_right _ (List.mem_singleton_self last)
  set d₁ := (fillLoop r.desc sgs none r.availHead.toNat).1
  have hchain : fillChain r sgs false =
      (Function.update d₁ last { d₁ last with flags := (d₁ last).flags &&& ~~~VRING_DESC_F_NEXT },
        (fillLoop r.desc sgs none r.availHead.toNat).2.2) := by
    simp only [fillChain, Bool.false_eq_true, if_false]
    rw [show fillLoop r.desc sgs none r.availHead.toNat =
      (d₁, some last, (fillLoop r.desc sgs none r.availHead.toNat).2.2) from Prod.ext rfl (Prod.ext h4 rfl)]
  rw [hchain]
  dsimp only
  refine ⟨(nextOf_update_flags _ _ _).trans h1, fun i hi => ?_, ?_, fun i hi => ?_, h5⟩
  · rw [Function.update_of_ne (fun he => hi (by rw [he]; exact hmem))]
    exact h2 i hi
  · -- all but the last keep the mark the loop gave them
    rw [hm]
    refine isChain_walk m _ (fun y hy => ?_) ?_
    · have hne' : y ≠ last := fun he => hlast (he ▸ hy)
      simp only [moreOf, Function.update_of_ne hne']
      exact (h3 y (by rw [hsplit]; exact List.mem_append_left _ hy)).1
    · change moreOf (Function.update d₁ last _) last = false
      simp only [moreOf, Function.update_self]
      exact has_next_clear _
  · by_cases he : i = last
    · rw [he, Function.update_self, has_indirect_clear]
      exact (h3 last hmem).2
    · rw [Function.update_of_ne he]
      exact (h3 i hi).2

/-- **One turn of `get_buf_gc`**, once the head the host returned starts a chain: the chain
goes to the front of the free list. -/
theorem gcOne_eq {r : Vring num} {l : List ℕ}
    (hc : IsChain (moreOf r.desc) (nextOf r.desc)
      (r.usedElements (Ring.slot num r.usedRingGuestHead.toNat)).id.toNat l)
    (hdir : (r.desc (r.usedElements (Ring.slot num r.usedRingGuestHead.toNat)).id.toNat).has
      VRING_DESC_F_INDIRECT = false)
    (hlen : l.length ≤ num + 1) :
    gcOne r = { r with
      usedRingGuestHead := r.usedRingGuestHead + 1
      availCount := r.availCount + UInt16.ofNat l.length
      desc := Function.update r.desc (l.getLast hc.ne_nil)
        { r.desc (l.getLast hc.ne_nil) with next := r.availHead }
      availHead := (r.usedElements (Ring.slot num r.usedRingGuestHead.toNat)).id.toUInt16 } := by
  simp only [gcOne, hdir, Bool.false_eq_true, if_false, chainEnd_of_isChain hc hlen,
    Nat.add_sub_cancel_left]

/-! ## Free-running counters -/

theorem toNat_add_one (b : UInt16) : (b + 1).toNat = (b.toNat + 1) % 2 ^ 16 := by
  rw [UInt16.toNat_add, UInt16.toNat_one]

/-- A counter is its base plus their difference, modulo `2 ^ 16`. -/
theorem add_toNat_sub (a b : UInt16) : (b.toNat + (a - b).toNat) % 2 ^ 16 = a.toNat := by
  have ha := a.toNat_lt
  have hb := b.toNat_lt
  rw [UInt16.toNat_sub]
  omega

theorem toNat_sub_pos {a b : UInt16} (h : a ≠ b) : 0 < (a - b).toNat := by
  have hne : a.toNat ≠ b.toNat := fun he => h (UInt16.toNat_inj.mp he)
  have ha := a.toNat_lt
  have hb := b.toNat_lt
  rw [UInt16.toNat_sub]
  omega

/-- Stepping the lower counter shortens the distance by one. -/
theorem toNat_sub_add_one_right {a b : UInt16} (h : a ≠ b) : (a - (b + 1)).toNat = (a - b).toNat - 1 := by
  have hne : a.toNat ≠ b.toNat := fun he => h (UInt16.toNat_inj.mp he)
  have ha := a.toNat_lt
  have hb := b.toNat_lt
  rw [UInt16.toNat_sub, UInt16.toNat_sub, toNat_add_one]
  omega

/-- Stepping the upper counter lengthens the distance by one, short of the wrap. -/
theorem toNat_add_one_sub {a b : UInt16} (h : (a - b).toNat + 1 < 2 ^ 16) :
    (a + 1 - b).toNat = (a - b).toNat + 1 := by
  have ha := a.toNat_lt
  have hb := b.toNat_lt
  rw [UInt16.toNat_sub] at h ⊢
  rw [UInt16.toNat_sub, toNat_add_one]
  omega

section Wrap

variable (hdvd : num ∣ 2 ^ 16)
include hdvd

/-- A window of a ring from a counter stepped by one. -/
theorem window_add_one {α : Type*} (cells : Fin num → α) (b : UInt16) (n : ℕ) :
    Ring.window cells (b + 1).toNat n = Ring.window cells (b.toNat + 1) n := by
  rw [toNat_add_one, Ring.window_mod cells hdvd]

/-- The cell a counter addresses, from another counter and their distance. -/
theorem slot_toNat (a b : UInt16) : Ring.slot num a.toNat = Ring.slot num (b.toNat + (a - b).toNat) := by
  rw [← Ring.slot_mod hdvd (b.toNat + (a - b).toNat), add_toNat_sub]

end Wrap

omit [NeZero num] in
/-- A chain whose cells a write avoids is the same chain after it. -/
theorem chainOf_congr {r r' : Vring num} {h : ℕ}
    (hc : IsChain (moreOf r.desc) (nextOf r.desc) h (r.chainOf h))
    (hagree : ∀ d ∈ r.chainOf h, r'.desc d = r.desc d) :
    r'.chainOf h = r.chainOf h ∧ IsChain (moreOf r'.desc) (nextOf r'.desc) h (r.chainOf h) := by
  have hc' : IsChain (moreOf r'.desc) (nextOf r'.desc) h (r.chainOf h) :=
    hc.congr (fun d hd => by rw [moreOf, moreOf, hagree d hd]) (fun d hd => by rw [nextOf, nextOf, hagree d hd])
  exact ⟨follow_of_isChain hc' (length_follow_le _ _ num h), hc'⟩

omit [NeZero num] in
theorem chainOf_ne_nil (r : Vring num) (h : ℕ) : r.chainOf h ≠ [] := follow_ne_nil _ _ num h

omit [NeZero num] in
@[simp] theorem length_freeList (r : Vring num) : r.freeList.length = r.availCount.toNat :=
  length_walk _ _ _

end Vring

theorem length_le_length_flatMap {α β : Type*} {f : α → List β} :
    ∀ {l : List α}, (∀ x ∈ l, f x ≠ []) → l.length ≤ (l.flatMap f).length
  | [], _ => Nat.le_refl 0
  | x :: l, hf => by
      have hx := List.length_pos_iff.mpr (hf x List.mem_cons_self)
      have ih := length_le_length_flatMap fun y hy => hf y (List.mem_cons_of_mem x hy)
      rw [List.flatMap_cons, List.length_append, List.length_cons]
      omega

theorem sublist_flatMap_of_mem {α β : Type*} {f : α → List β} {a : α} :
    ∀ {l : List α}, a ∈ l → List.Sublist (f a) (l.flatMap f)
  | x :: l, h => by
      rw [List.flatMap_cons]
      rcases List.mem_cons.mp h with rfl | h
      · exact List.sublist_append_left _ _
      · exact (sublist_flatMap_of_mem h).trans (List.sublist_append_right _ _)

/-! ## The lists a state denotes -/

namespace Sys

open Vring

variable {num : ℕ} [NeZero num]

/-- The heads published that the host has not taken: the available ring from `last_avail_idx`
to `_avail->_idx`. -/
def unfetched (s : Sys num) : List ℕ :=
  (Ring.window s.ring.availRing s.host.lastAvail.toNat
    (s.ring.availIdx - s.host.lastAvail).toNat).map UInt16.toNat

/-- The heads the host returned that `get_buf_gc` has not put back: the used ring from
`_used_ring_guest_head` to `_used->_idx`. -/
def unreclaimed (s : Sys num) : List ℕ :=
  (Ring.window s.ring.usedElements s.ring.usedRingGuestHead.toNat
    (s.ring.usedIdx - s.ring.usedRingGuestHead).toNat).map fun e => e.id.toNat

/-- The heads of the buffers published and not yet reclaimed. -/
def inFlight (s : Sys num) : List ℕ := s.unfetched ++ s.host.taken ++ s.unreclaimed

/-- The descriptors of the chains of those buffers. -/
def busy (s : Sys num) : List ℕ := s.inFlight.flatMap s.ring.chainOf

/-- The descriptors in no chain of a buffer published and not yet reclaimed. -/
def freeDescs (s : Sys num) : List ℕ := (List.range num).filter fun d => d ∉ s.busy

/-- The avail indices published since the host was last notified, the latest first. -/
def publishedSinceKick (s : Sys num) : List UInt16 :=
  (List.range s.sinceKick).map fun k => s.ring.availIdx - 1 - UInt16.ofNat k

/-- **The invariant.**  The free list and the chains of the buffers in flight partition the
descriptors; each chain is marked as the host follows it and its head is not indirect;
`_used_ring_host_head` has not passed `_used->_idx`; `_avail_added_since_kick` counts the
publications since the last notification. -/
structure Inv (s : Sys num) : Prop where
  partition : (s.ring.freeList ++ s.busy).Perm (List.range num)
  chain : ∀ h ∈ s.inFlight, IsChain (moreOf s.ring.desc) (nextOf s.ring.desc) h (s.ring.chainOf h)
  direct : ∀ h ∈ s.inFlight, (s.ring.desc h).has VRING_DESC_F_INDIRECT = false
  finalized : (s.ring.usedRingHostHead - s.ring.usedRingGuestHead).toNat ≤
    (s.ring.usedIdx - s.ring.usedRingGuestHead).toNat
  kicks : s.ring.availAddedSinceKick.toNat = s.sinceKick % 2 ^ 16

variable {s : Sys num}

theorem Inv.nodup (hinv : Inv s) : (s.ring.freeList ++ s.busy).Nodup :=
  hinv.partition.nodup_iff.mpr List.nodup_range

theorem Inv.lt_num (hinv : Inv s) {d : ℕ} (hd : d ∈ s.ring.freeList ++ s.busy) : d < num :=
  List.mem_range.mp (hinv.partition.mem_iff.mp hd)

/-- Each buffer in flight holds a descriptor. -/
theorem Inv.count (hinv : Inv s) : s.ring.availCount.toNat + s.inFlight.length ≤ num := by
  have hlen := hinv.partition.length_eq
  rw [List.length_append, length_freeList, List.length_range] at hlen
  have := length_le_length_flatMap (f := s.ring.chainOf) (l := s.inFlight)
    fun h _ => chainOf_ne_nil s.ring h
  rw [busy] at hlen
  omega

theorem Inv.head_lt (hinv : Inv s) {h : ℕ} (hh : h ∈ s.inFlight) : h < num :=
  hinv.lt_num (List.mem_append_right _
    (List.mem_flatMap.mpr ⟨h, hh, (hinv.chain h hh).head_mem⟩))

/-- The chain of a buffer in flight shares no descriptor with the free list or with the chain
of another buffer in flight. -/
theorem Inv.disjoint (hinv : Inv s) {A B : List ℕ} {h : ℕ} (hs : s.inFlight = A ++ h :: B) :
    (∀ d ∈ s.ring.chainOf h, d ∉ s.ring.freeList) ∧
      ∀ h' ∈ A ++ B, ∀ d ∈ s.ring.chainOf h, d ∉ s.ring.chainOf h' := by
  have hnd := hinv.nodup
  rw [busy, hs, List.flatMap_append, List.flatMap_cons] at hnd
  refine ⟨fun d hd hf => ?_, fun h' hh' d hd hd' => ?_⟩
  · exact List.disjoint_of_nodup_append hnd hf
      (List.mem_append_right _ (List.mem_append_left _ hd))
  · have hnd' := (List.nodup_append.mp hnd).2.1
    rcases List.mem_append.mp hh' with hA | hB
    · exact List.disjoint_of_nodup_append hnd' (List.mem_flatMap.mpr ⟨h', hA, hd'⟩)
        (List.mem_append_left _ hd)
    · have hnd'' := (List.nodup_append.mp hnd').2.1
      exact List.disjoint_of_nodup_append hnd'' hd (List.mem_flatMap.mpr ⟨h', hB, hd'⟩)

/-! ## `get_buf_gc` -/

section Gc

variable (hdvd : num ∣ 2 ^ 16) (hlt : num < 2 ^ 16)
include hdvd hlt

/-- The lists after one turn of `get_buf_gc`: the first chain of the used ring leaves it and
goes to the front of the free list; every other chain stays as it was. -/
theorem Inv.gcOne_lists (hinv : Inv s) (hne : s.ring.usedRingGuestHead ≠ s.ring.usedRingHostHead) :
    ∃ h U, s.unreclaimed = h :: U ∧
      (Vring.gcOne s.ring).freeList = s.ring.chainOf h ++ s.ring.freeList ∧
      Sys.unfetched { s with ring := Vring.gcOne s.ring } = s.unfetched ∧
      Sys.unreclaimed { s with ring := Vring.gcOne s.ring } = U ∧
      (∀ h' ∈ s.unfetched ++ s.host.taken ++ U,
        (Vring.gcOne s.ring).chainOf h' = s.ring.chainOf h' ∧
        IsChain (moreOf (Vring.gcOne s.ring).desc) (nextOf (Vring.gcOne s.ring).desc) h' (s.ring.chainOf h') ∧
        (Vring.gcOne s.ring).desc h' = s.ring.desc h') ∧
      (Vring.gcOne s.ring).availCount.toNat = s.ring.availCount.toNat + (s.ring.chainOf h).length ∧
      (Vring.gcOne s.ring).usedRingGuestHead = s.ring.usedRingGuestHead + 1 := by
  have hpos : 0 < (s.ring.usedIdx - s.ring.usedRingGuestHead).toNat :=
    lt_of_lt_of_le (toNat_sub_pos (Ne.symm hne)) hinv.finalized
  obtain ⟨n, hn⟩ : ∃ n, (s.ring.usedIdx - s.ring.usedRingGuestHead).toNat = n + 1 :=
    ⟨_, (Nat.succ_pred_eq_of_pos hpos).symm⟩
  -- the head the host returned at `_used_ring_guest_head`
  set h := (s.ring.usedElements (Ring.slot num s.ring.usedRingGuestHead.toNat)).id.toNat with hh
  set U := (Ring.window s.ring.usedElements (s.ring.usedRingGuestHead.toNat + 1) n).map
    fun e => e.id.toNat
  have hunrec : s.unreclaimed = h :: U := by
    rw [unreclaimed, hn, Ring.window_pop, List.map_cons]
  have hs : s.inFlight = (s.unfetched ++ s.host.taken) ++ h :: U := by
    rw [inFlight, hunrec, List.append_assoc]
  have hmem : h ∈ s.inFlight := by
    rw [hs]
    exact List.mem_append_right _ List.mem_cons_self
  have hc := hinv.chain h hmem
  obtain ⟨hfree, hother⟩ := hinv.disjoint hs
  have hgc := gcOne_eq hc (hinv.direct h hmem) (length_follow_le _ _ num h)
  set last := (s.ring.chainOf h).getLast hc.ne_nil
  have hlast : last ∈ s.ring.chainOf h := List.getLast_mem _
  have hcnd : (s.ring.chainOf h).Nodup :=
    (List.nodup_append.mp hinv.nodup).2.1.sublist
      (sublist_flatMap_of_mem (f := s.ring.chainOf) hmem)
  have hbusy : (s.ring.chainOf h).length ≤ s.busy.length :=
    (sublist_flatMap_of_mem (f := s.ring.chainOf) hmem).length_le
  have hcount : s.ring.availCount.toNat + s.busy.length = num := by
    have := hinv.partition.length_eq
    rwa [List.length_append, length_freeList, List.length_range] at this
  have hh_lt : h < num := hinv.head_lt hmem
  refine ⟨h, U, hunrec, ?_, ?_, ?_, fun h' hh' => ?_, ?_, by rw [hgc]⟩
  · -- the relinked chain runs into the old free list
    have hid : (s.ring.usedElements (Ring.slot num s.ring.usedRingGuestHead.toNat)).id.toUInt16.toNat = h := by
      rw [UInt32.toNat_toUInt16, Nat.mod_eq_of_lt (by omega)]
    have hcnt : (s.ring.availCount + UInt16.ofNat (s.ring.chainOf h).length).toNat =
        (s.ring.chainOf h).length + s.ring.availCount.toNat := by
      rw [UInt16.toNat_add, UInt16.toNat_ofNat', Nat.mod_eq_of_lt (a := (s.ring.chainOf h).length) (by omega),
        Nat.mod_eq_of_lt (by omega), Nat.add_comm]
    rw [freeList, hgc]
    dsimp only
    rw [hid, hcnt, nextOf_update_next, hc.walk_relink hcnd, walk_update (fun hl => hfree last hlast hl)]
    rfl
  · simp only [unfetched, hgc]
  · simp only [unreclaimed, hgc]
    rw [window_add_one hdvd, toNat_sub_add_one_right (Ne.symm (fun he => by rw [he] at hpos; simp at hpos)), hn,
      Nat.add_sub_cancel]
  · -- another chain avoids the relinked descriptor
    have hnot : last ∉ s.ring.chainOf h' := hother h' (by rwa [List.append_assoc] at hh' ⊢) last hlast
    have hagree : ∀ d ∈ s.ring.chainOf h', (Vring.gcOne s.ring).desc d = s.ring.desc d := fun d hd => by
      rw [hgc]
      exact Function.update_of_ne (fun he => hnot (by rw [← he]; exact hd)) _ _
    have hmem' : h' ∈ s.inFlight := by
      rw [hs]
      rcases List.mem_append.mp hh' with hA | hU
      · exact List.mem_append_left _ hA
      · exact List.mem_append_right _ (List.mem_cons_of_mem _ hU)
    obtain ⟨h1, h2⟩ := chainOf_congr (hinv.chain h' hmem') hagree
    exact ⟨h1, h2, hagree h' (hinv.chain h' hmem').head_mem⟩
  · rw [hgc]
    dsimp only
    rw [UInt16.toNat_add, UInt16.toNat_ofNat', Nat.mod_eq_of_lt (a := (s.ring.chainOf h).length) (by omega),
      Nat.mod_eq_of_lt (by omega)]

/-- **One turn of `get_buf_gc` keeps the invariant.** -/
theorem Inv.gcOne (hinv : Inv s) (hne : s.ring.usedRingGuestHead ≠ s.ring.usedRingHostHead) :
    Inv { s with ring := Vring.gcOne s.ring } := by
  obtain ⟨h, U, hunrec, hfree, hunf, hunrec', hother, -, hguest⟩ := hinv.gcOne_lists hdvd hlt hne
  have hin : Sys.inFlight { s with ring := Vring.gcOne s.ring } = s.unfetched ++ s.host.taken ++ U := by
    rw [inFlight, hunf, hunrec']
  have hold : ∀ h' ∈ s.unfetched ++ s.host.taken ++ U, h' ∈ s.inFlight := fun h' hh' => by
    rw [inFlight, hunrec]
    simp only [List.mem_append, List.mem_cons] at hh' ⊢
    tauto
  have hbusy : Sys.busy { s with ring := Vring.gcOne s.ring } =
      (s.unfetched ++ s.host.taken ++ U).flatMap s.ring.chainOf := by
    rw [busy, hin]
    exact List.flatMap_congr fun h' hh' => (hother h' hh').1
  have hne' : s.ring.usedIdx ≠ s.ring.usedRingGuestHead := fun he => by
    have := hinv.finalized
    rw [he, UInt16.sub_self, UInt16.toNat_zero] at this
    exact absurd (Nat.le_zero.mp this) (Nat.pos_iff_ne_zero.mp (toNat_sub_pos (Ne.symm hne)))
  constructor
  · -- the chain moved from the used ring to the free list
    rw [hbusy]
    dsimp only
    rw [hfree]
    refine List.Perm.trans ?_ hinv.partition
    rw [busy, inFlight, hunrec, List.perm_iff_count]
    intro a
    simp only [List.flatMap_append, List.flatMap_cons, List.count_append]
    omega
  · intro h' hh'
    rw [hin] at hh'
    dsimp only
    rw [(hother h' hh').1]
    exact (hother h' hh').2.1
  · intro h' hh'
    rw [hin] at hh'
    dsimp only
    rw [(hother h' hh').2.2]
    exact hinv.direct h' (hold h' hh')
  · dsimp only
    rw [hguest, show (Vring.gcOne s.ring).usedRingHostHead = s.ring.usedRingHostHead by rw [Vring.gcOne],
      show (Vring.gcOne s.ring).usedIdx = s.ring.usedIdx by rw [Vring.gcOne],
      toNat_sub_add_one_right (Ne.symm hne), toNat_sub_add_one_right hne']
    have := hinv.finalized
    omega
  · exact hinv.kicks

/-- **`get_buf_gc` keeps the invariant**, reaches `_used_ring_host_head`, and gives back at least
one descriptor for each chain it reads. -/
theorem Inv.gcLoop :
    ∀ (n : ℕ) (s : Sys num), Inv s → (s.ring.usedRingHostHead - s.ring.usedRingGuestHead).toNat = n →
      Inv { s with ring := Vring.gcLoop n s.ring } ∧
        s.ring.availCount.toNat + n ≤ (Vring.gcLoop n s.ring).availCount.toNat ∧
        (Vring.gcLoop n s.ring).usedRingGuestHead = s.ring.usedRingHostHead ∧
        (Vring.gcLoop n s.ring).usedRingHostHead = s.ring.usedRingHostHead
  | 0, s, hinv, hn => by
      have heq : s.ring.usedRingHostHead = s.ring.usedRingGuestHead := by
        have := toNat_sub_pos (a := s.ring.usedRingHostHead) (b := s.ring.usedRingGuestHead)
        by_contra hne
        exact absurd hn (Nat.pos_iff_ne_zero.mp (this hne))
      exact ⟨hinv, Nat.le_refl _, heq.symm, rfl⟩
  | n + 1, s, hinv, hn => by
      have hne : s.ring.usedRingGuestHead ≠ s.ring.usedRingHostHead := fun he => by
        rw [he, UInt16.sub_self, UInt16.toNat_zero] at hn
        exact Nat.succ_ne_zero n hn.symm
      obtain ⟨h, U, -, -, -, -, -, hcount, hguest⟩ := hinv.gcOne_lists hdvd hlt hne
      have hhost : (Vring.gcOne s.ring).usedRingHostHead = s.ring.usedRingHostHead := by rw [Vring.gcOne]
      obtain ⟨ih1, ih2, ih3, ih4⟩ := Inv.gcLoop n { s with ring := Vring.gcOne s.ring } (hinv.gcOne hdvd hlt hne)
        (by
          dsimp only
          rw [hhost, hguest, toNat_sub_add_one_right (Ne.symm hne), hn, Nat.add_sub_cancel])
      have hpos := List.length_pos_iff.mpr (chainOf_ne_nil s.ring h)
      rw [gcLoop_succ_of_ne hne]
      dsimp only at ih1 ih2 ih3 ih4
      refine ⟨ih1, ?_, ih3.trans hhost, ih4.trans hhost⟩
      omega

/-- **`get_buf_gc` keeps the invariant** and gives back every descriptor of the chains read
from the used ring: at least one for each. -/
theorem Inv.getBufGc (hinv : Inv s) :
    Inv { s with ring := Vring.getBufGc s.ring } ∧
      s.ring.availCount.toNat + (s.ring.usedRingHostHead - s.ring.usedRingGuestHead).toNat ≤
        (Vring.getBufGc s.ring).availCount.toNat := by
  obtain ⟨h1, h2, -, -⟩ := Inv.gcLoop hdvd hlt _ s hinv rfl
  exact ⟨h1, h2⟩

end Gc

/-! ## `add_buf` -/

section Publish

variable (hdvd : num ∣ 2 ^ 16) (hlt : num < 2 ^ 16)
include hdvd hlt

omit [NeZero num] hdvd hlt in
/-- After a link has been followed, a walk stands at a `u16` index. -/
theorem iterate_nextOf_lt (desc : ℕ → VringDesc) (p : ℕ) {k : ℕ} (hk : 0 < k) :
    (nextOf desc)^[k] p < 2 ^ 16 := by
  obtain ⟨m, rfl⟩ : ∃ m, k = m + 1 := ⟨k - 1, by omega⟩
  rw [Function.iterate_succ_apply']
  exact UInt16.toNat_lt _

omit hdvd hlt in
/-- The fields `publish` writes, for the direct branch. -/
theorem publish_eq (r : Vring num) (sgs : List SgNode) (cookie : Option ℕ) :
    publish r sgs cookie false = { r with
      desc := (fillChain r sgs false).1
      cookie := Function.update r.cookie r.availHead.toNat cookie
      availAddedSinceKick := r.availAddedSinceKick + 1
      availCount := r.availCount - UInt16.ofNat sgs.length
      availRing := Function.update r.availRing (Ring.slot num r.availIdx.toNat) r.availHead
      availIdx := r.availIdx + 1
      availHead := UInt16.ofNat (fillChain r sgs false).2 } := by
  simp only [publish, Bool.false_eq_true, if_false]

/-- The lists after `add_buf` publishes: the first `sgs.length` descriptors of the free list
become the chain of a new head at the end of the available ring; every other chain stays as it
was. -/
theorem Inv.publish_lists (hinv : Inv s) {sgs : List SgNode} (hdir : Direct sgs)
    (hk : sgs.length ≤ s.ring.availCount.toNat) (cookie : Option ℕ) :
    (publish s.ring sgs cookie false).freeList = s.ring.freeList.drop sgs.length ∧
      (publish s.ring sgs cookie false).chainOf s.ring.availHead.toNat = s.ring.freeList.take sgs.length ∧
      IsChain (moreOf (publish s.ring sgs cookie false).desc) (nextOf (publish s.ring sgs cookie false).desc)
        s.ring.availHead.toNat (s.ring.freeList.take sgs.length) ∧
      ((publish s.ring sgs cookie false).desc s.ring.availHead.toNat).has VRING_DESC_F_INDIRECT = false ∧
      Sys.unfetched { s with ring := publish s.ring sgs cookie false } = s.unfetched ++ [s.ring.availHead.toNat] ∧
      Sys.unreclaimed { s with ring := publish s.ring sgs cookie false } = s.unreclaimed ∧
      (∀ h' ∈ s.inFlight,
        (publish s.ring sgs cookie false).chainOf h' = s.ring.chainOf h' ∧
        IsChain (moreOf (publish s.ring sgs cookie false).desc) (nextOf (publish s.ring sgs cookie false).desc) h'
          (s.ring.chainOf h') ∧
        (publish s.ring sgs cookie false).desc h' = s.ring.desc h') := by
  obtain ⟨hne, hflags⟩ := hdir
  have hpos := List.length_pos_iff.mpr hne
  have hcount := hinv.count
  -- the new chain is the front of the free list
  have htake : s.ring.freeList.take sgs.length = walk (nextOf s.ring.desc) s.ring.availHead.toNat sgs.length :=
    take_walk _ _ hk
  have hnd : (walk (nextOf s.ring.desc) s.ring.availHead.toNat sgs.length).Nodup := by
    rw [← htake]
    exact ((List.nodup_append.mp hinv.nodup).1).sublist (List.take_sublist _ _)
  obtain ⟨f1, f2, f3, f4, f5⟩ := fillChain_spec hne hnd hflags
  have hnext : nextOf (publish s.ring sgs cookie false).desc = nextOf s.ring.desc := by
    rw [publish_eq]
    exact f1
  have hfront : ∀ d ∈ walk (nextOf s.ring.desc) s.ring.availHead.toNat sgs.length, d ∈ s.ring.freeList :=
    fun d hd => (List.take_sublist _ _).subset (htake ▸ hd)
  have hhead : s.ring.availHead.toNat ∈ walk (nextOf s.ring.desc) s.ring.availHead.toNat sgs.length := by
    obtain ⟨m, hm⟩ : ∃ m, sgs.length = m + 1 := ⟨sgs.length - 1, by omega⟩
    rw [hm, walk_succ]
    exact List.mem_cons_self
  have hchain : IsChain (moreOf (publish s.ring sgs cookie false).desc)
      (nextOf (publish s.ring sgs cookie false).desc) s.ring.availHead.toNat
      (s.ring.freeList.take sgs.length) := by
    rw [hnext, htake, publish_eq]
    exact f3
  refine ⟨?_, ?_, hchain, ?_, ?_, ?_, fun h' hh' => ?_⟩
  · -- the free list now starts after the chain
    rw [freeList, hnext, publish_eq]
    dsimp only
    rw [f5, UInt16.toNat_ofNat', Nat.mod_eq_of_lt (iterate_nextOf_lt _ _ hpos), UInt16.toNat_sub_of_le,
      UInt16.toNat_ofNat', Nat.mod_eq_of_lt (by omega), freeList, drop_walk _ _ hk]
    rw [UInt16.le_iff_toNat_le, UInt16.toNat_ofNat', Nat.mod_eq_of_lt (by omega)]
    exact hk
  · exact follow_of_isChain hchain (by rw [List.length_take]; omega)
  · rw [publish_eq]
    exact f4 _ hhead
  · -- the new head goes in the cell after the window of the available ring
    have hwin : (s.ring.availIdx - s.host.lastAvail).toNat < num := by
      have : s.unfetched.length ≤ s.inFlight.length := by
        simp only [inFlight, List.length_append]
        omega
      rw [unfetched, List.length_map, Ring.window_length] at this
      omega
    simp only [unfetched, publish_eq]
    rw [toNat_add_one_sub (by omega), slot_toNat hdvd s.ring.availIdx s.host.lastAvail,
      Ring.window_push _ _ hwin, List.map_append, List.map_singleton]
  · simp only [unreclaimed, publish_eq]
  · -- a chain in flight avoids the descriptors of the new one
    have hbusy : ∀ d ∈ s.ring.chainOf h', d ∈ s.busy := fun d hd =>
      List.mem_flatMap.mpr ⟨h', hh', hd⟩
    have hagree : ∀ d ∈ s.ring.chainOf h', (publish s.ring sgs cookie false).desc d = s.ring.desc d := by
      intro d hd
      rw [publish_eq]
      refine f2 d fun hw => ?_
      exact List.disjoint_of_nodup_append hinv.nodup (hfront d hw) (hbusy d hd)
    obtain ⟨h1, h2⟩ := chainOf_congr (hinv.chain h' hh') hagree
    exact ⟨h1, h2, hagree h' (hinv.chain h' hh').head_mem⟩

/-- **Publishing keeps the invariant**, and counts the publication. -/
theorem Inv.publish (hinv : Inv s) {sgs : List SgNode} (hdir : Direct sgs)
    (hk : sgs.length ≤ s.ring.availCount.toNat) (cookie : Option ℕ) :
    Inv { s with ring := Vring.publish s.ring sgs cookie false, sinceKick := s.sinceKick + 1 } := by
  obtain ⟨p1, p2, p3, p4, p5, p6, p7⟩ := hinv.publish_lists hdvd hlt hdir hk cookie
  set r' := Vring.publish s.ring sgs cookie false
  set head := s.ring.availHead.toNat
  have hin : Sys.inFlight { s with ring := r', sinceKick := s.sinceKick + 1 } =
      s.unfetched ++ [head] ++ s.host.taken ++ s.unreclaimed := by
    rw [inFlight, show Sys.unfetched { s with ring := r', sinceKick := s.sinceKick + 1 } =
      Sys.unfetched { s with ring := r' } from rfl, p5, show Sys.unreclaimed
        { s with ring := r', sinceKick := s.sinceKick + 1 } = Sys.unreclaimed { s with ring := r' } from rfl, p6]
  -- a head in flight now is the new one or one in flight before
  have hcases : ∀ h ∈ Sys.inFlight { s with ring := r', sinceKick := s.sinceKick + 1 },
      h = head ∨ h ∈ s.inFlight := fun h hh => by
    rw [hin] at hh
    rw [inFlight]
    simp only [List.mem_append, List.mem_singleton] at hh ⊢
    tauto
  have hcongr : ∀ L : List ℕ, (∀ h ∈ L, h ∈ s.inFlight) → L.flatMap r'.chainOf = L.flatMap s.ring.chainOf :=
    fun L hL => List.flatMap_congr fun h hh => (p7 h (hL h hh)).1
  constructor
  · -- the front of the free list became the new chain
    dsimp only
    rw [p1, busy, hin, List.flatMap_append, List.flatMap_append, List.flatMap_append, List.flatMap_singleton, p2,
      hcongr s.unfetched (fun h hh => by rw [inFlight]; simp [hh]),
      hcongr s.host.taken (fun h hh => by rw [inFlight]; simp [hh]),
      hcongr s.unreclaimed (fun h hh => by rw [inFlight]; simp [hh])]
    refine List.Perm.trans ?_ hinv.partition
    rw [busy, inFlight, List.perm_iff_count]
    intro a
    have hF : s.ring.freeList.count a =
        (s.ring.freeList.take sgs.length).count a + (s.ring.freeList.drop sgs.length).count a := by
      rw [← List.count_append, List.take_append_drop]
    simp only [List.flatMap_append, List.count_append]
    omega
  · intro h hh
    rcases hcases h hh with rfl | hh'
    · dsimp only
      rw [p2]
      exact p3
    · dsimp only
      rw [(p7 h hh').1]
      exact (p7 h hh').2.1
  · intro h hh
    rcases hcases h hh with rfl | hh'
    · exact p4
    · dsimp only
      rw [(p7 h hh').2.2]
      exact hinv.direct h hh'
  · simp only [r', publish_eq]
    exact hinv.finalized
  · simp only [r', publish_eq]
    rw [toNat_add_one, hinv.kicks, Nat.add_mod, Nat.mod_mod, ← Nat.add_mod]

end Publish

/-! ## The other calls, and the host -/

section Steps

variable (hdvd : num ∣ 2 ^ 16) (hlt : num < 2 ^ 16)

omit [NeZero num] in
/-- Two counters at the same distance from a third are equal. -/
theorem eq_of_toNat_sub_eq {a b c : UInt16} (h : (a - c).toNat = (b - c).toNat) : a = b := by
  apply UInt16.toNat_inj.mp
  rw [← add_toNat_sub a c, ← add_toNat_sub b c, h]

theorem Inv.getBufElem (hinv : Inv s) : Inv { s with ring := (Vring.getBufElem s.ring).2.2 } := by
  unfold Vring.getBufElem
  split
  · exact hinv
  · exact ⟨hinv.1, hinv.2, hinv.3, hinv.4, hinv.5⟩

theorem Inv.setAvailEvent (hinv : Inv s) (v : UInt16) :
    Inv { s with ring := { s.ring with availEvent := v } } :=
  ⟨hinv.1, hinv.2, hinv.3, hinv.4, hinv.5⟩

theorem Inv.setUsedFlags (hinv : Inv s) (v : UInt16) :
    Inv { s with ring := { s.ring with usedFlags := v } } :=
  ⟨hinv.1, hinv.2, hinv.3, hinv.4, hinv.5⟩

/-- `kick` clears `_avail_added_since_kick` exactly when it notifies. -/
theorem Inv.kick (hinv : Inv s) (dev : Device) :
    Inv { s with ring := (Vring.kick dev s.ring).2,
                 sinceKick := if (Vring.kick dev s.ring).1 then 0 else s.sinceKick } := by
  rw [kick_snd]
  by_cases hk : (Vring.kick dev s.ring).1
  · rw [if_pos hk, if_pos hk]
    exact ⟨hinv.1, hinv.2, hinv.3, hinv.4, rfl⟩
  · rw [if_neg hk, if_neg hk]
    exact hinv

theorem Inv.getBufFinalize (hinv : Inv s) (hne : s.ring.usedRingHostHead ≠ s.ring.usedIdx) :
    Inv { s with ring := Vring.getBufFinalize s.ring } := by
  have hlt' : (s.ring.usedRingHostHead - s.ring.usedRingGuestHead).toNat <
      (s.ring.usedIdx - s.ring.usedRingGuestHead).toNat :=
    lt_of_le_of_ne hinv.finalized fun he => hne (eq_of_toNat_sub_eq he)
  refine ⟨hinv.1, hinv.2, hinv.3, ?_, hinv.5⟩
  show (s.ring.usedRingHostHead + 1 - s.ring.usedRingGuestHead).toNat ≤ _
  rw [toNat_add_one_sub (by have := UInt16.toNat_lt (s.ring.usedIdx - s.ring.usedRingGuestHead); omega)]
  exact hlt'

include hdvd in
/-- **The host takes the next published head**: it moves from the available ring to the
host's list. -/
theorem Inv.take (hinv : Inv s) (hne : s.host.lastAvail ≠ s.ring.availIdx) :
    Inv { s with host := ⟨s.host.lastAvail + 1,
      s.host.taken ++ [(s.ring.availRing (Ring.slot num s.host.lastAvail.toNat)).toNat]⟩ } := by
  obtain ⟨n, hn⟩ : ∃ n, (s.ring.availIdx - s.host.lastAvail).toNat = n + 1 :=
    ⟨_, (Nat.succ_pred_eq_of_pos (toNat_sub_pos (Ne.symm hne))).symm⟩
  set head := (s.ring.availRing (Ring.slot num s.host.lastAvail.toNat)).toNat
  set rest := (Ring.window s.ring.availRing (s.host.lastAvail.toNat + 1) n).map UInt16.toNat
  have hunf : s.unfetched = head :: rest := by
    rw [unfetched, hn, Ring.window_pop, List.map_cons]
  have hunf' : Sys.unfetched { s with host := ⟨s.host.lastAvail + 1, s.host.taken ++ [head]⟩ } = rest := by
    simp only [unfetched]
    rw [window_add_one hdvd, toNat_sub_add_one_right (Ne.symm hne), hn, Nat.add_sub_cancel]
  have hperm : (Sys.inFlight { s with host := ⟨s.host.lastAvail + 1, s.host.taken ++ [head]⟩ }).Perm
      s.inFlight := by
    rw [inFlight, hunf', show Sys.unreclaimed { s with host := ⟨s.host.lastAvail + 1, s.host.taken ++ [head]⟩ } =
      s.unreclaimed from rfl, inFlight, hunf, List.perm_iff_count]
    intro a
    simp only [List.count_append, List.count_cons, List.count_nil]
    omega
  refine ⟨(List.Perm.append_left _ (hperm.flatMap_right _)).trans hinv.partition,
    fun h hh => hinv.chain h (hperm.mem_iff.mp hh), fun h hh => hinv.direct h (hperm.mem_iff.mp hh),
    hinv.finalized, hinv.kicks⟩

include hdvd hlt in
/-- **The host returns a chain it holds**, in any order: its head moves to the end of the used
ring. -/
theorem Inv.complete (hinv : Inv s) {j : ℕ} (hj : j < s.host.taken.length) (len : UInt32) :
    Inv { s with
      ring := { s.ring with
        usedElements := Function.update s.ring.usedElements (Ring.slot num s.ring.usedIdx.toNat)
          ⟨UInt32.ofNat s.host.taken[j], len⟩
        usedIdx := s.ring.usedIdx + 1 }
      host := { s.host with taken := s.host.taken.eraseIdx j } } := by
  have hcount := hinv.count
  have hT : s.host.taken[j] ∈ s.inFlight := by
    rw [inFlight]
    exact List.mem_append_left _ (List.mem_append_right _ (List.getElem_mem hj))
  have hwin : (s.ring.usedIdx - s.ring.usedRingGuestHead).toNat < num := by
    have : s.unreclaimed.length + s.host.taken.length ≤ s.inFlight.length := by
      simp only [inFlight, List.length_append]
      omega
    rw [unreclaimed, List.length_map, Ring.window_length] at this
    omega
  have hid : (UInt32.ofNat s.host.taken[j]).toNat = s.host.taken[j] := by
    rw [UInt32.toNat_ofNat', Nat.mod_eq_of_lt (by have := hinv.head_lt hT; omega)]
  set s' : Sys num := { s with
      ring := { s.ring with
        usedElements := Function.update s.ring.usedElements (Ring.slot num s.ring.usedIdx.toNat)
          ⟨UInt32.ofNat s.host.taken[j], len⟩
        usedIdx := s.ring.usedIdx + 1 }
      host := { s.host with taken := s.host.taken.eraseIdx j } }
  have hunrec : s'.unreclaimed = s.unreclaimed ++ [s.host.taken[j]] := by
    simp only [s', unreclaimed]
    rw [toNat_add_one_sub (by omega), slot_toNat hdvd s.ring.usedIdx s.ring.usedRingGuestHead,
      Ring.window_push _ _ hwin, List.map_append, List.map_singleton, hid]
  have htaken : s'.host.taken = s.host.taken.eraseIdx j := rfl
  have hunf : s'.unfetched = s.unfetched := rfl
  have hperm : s'.inFlight.Perm s.inFlight := by
    rw [inFlight, hunrec, htaken, hunf, inFlight, List.perm_iff_count]
    intro a
    have he := (List.getElem_cons_eraseIdx_perm hj).count_eq a
    simp only [List.count_append, List.count_cons, List.count_nil] at he ⊢
    omega
  refine ⟨(List.Perm.append_left _ (hperm.flatMap_right _)).trans hinv.partition,
    fun h hh => hinv.chain h (hperm.mem_iff.mp hh), fun h hh => hinv.direct h (hperm.mem_iff.mp hh),
    ?_, hinv.kicks⟩
  show (s.ring.usedRingHostHead - s.ring.usedRingGuestHead).toNat ≤
    (s.ring.usedIdx + 1 - s.ring.usedRingGuestHead).toNat
  rw [toNat_add_one_sub (by omega)]
  exact Nat.le_succ_of_le hinv.finalized

include hdvd hlt in
/-- **`add_buf` keeps the invariant**: its `get_buf_gc`, then either the publication or the
`kick` of a full ring. -/
theorem Inv.addBuf (hinv : Inv s) (dev : Device) {sgs : List SgNode} (hdir : Direct sgs)
    (cookie : Option ℕ) :
    Inv { s with
      ring := (Vring.addBuf dev s.ring sgs cookie).2
      sinceKick :=
        if (Vring.addBuf dev s.ring sgs cookie).1 then s.sinceKick + 1
        else if (Vring.kick dev (Vring.getBufGc s.ring)).1 then 0 else s.sinceKick } := by
  obtain ⟨hgc, -⟩ := hinv.getBufGc hdvd hlt
  by_cases hk : sgs.length ≤ (Vring.getBufGc s.ring).availCount.toNat
  · rw [addBuf_of_le hk, if_pos rfl]
    exact hgc.publish hdvd hlt hdir hk cookie
  · rw [addBuf_of_lt (Nat.lt_of_not_le hk)]
    simp only [Bool.false_eq_true, if_false]
    exact hgc.kick dev

include hdvd hlt in
/-- **Every step keeps the invariant.** -/
theorem Inv.step (hinv : Inv s) {dev : Device} {op : Op} {s' : Sys num}
    (h : Sys.step dev s op = some s') : Inv s' := by
  cases op with
  | addBuf sgVec cookie =>
      simp only [Sys.step] at h
      by_cases hdir : Direct sgVec
      · rw [if_pos hdir] at h
        cases h
        exact hinv.addBuf hdvd hlt dev hdir cookie
      · rw [if_neg hdir] at h
        cases h
  | getBufGc =>
      cases h
      exact (hinv.getBufGc hdvd hlt).1
  | getBufElem =>
      cases h
      exact hinv.getBufElem
  | getBufFinalize =>
      simp only [Sys.step] at h
      split_ifs at h with hne
      cases h
      exact hinv.getBufFinalize hne
  | kick =>
      cases h
      exact hinv.kick dev
  | take =>
      simp only [Sys.step] at h
      split_ifs at h with hne
      cases h
      exact hinv.take hdvd hne
  | complete j len =>
      simp only [Sys.step] at h
      split_ifs at h with hj
      cases h
      exact hinv.complete hdvd hlt hj len
  | setAvailEvent v =>
      cases h
      exact hinv.setAvailEvent v
  | setUsedFlags v =>
      cases h
      exact hinv.setUsedFlags v

end Steps

/-! ## Every reachable state -/

omit [NeZero num] in
/-- The constructor links each descriptor to the next: its free list is every descriptor, in
order. -/
theorem walk_init (hlt : num < 2 ^ 16) (cookie : ℕ → Option ℕ) [NeZero num] :
    ∀ (m p : ℕ), p + m ≤ num → walk (nextOf (Vring.init num cookie).desc) p m = List.range' p m
  | 0, _, _ => rfl
  | m + 1, p, hpm => by
      rw [walk_succ, List.range'_succ]
      cases m with
      | zero => rfl
      | succ m =>
          have hnext : nextOf (Vring.init num cookie).desc p = p + 1 := by
            simp only [nextOf, Vring.init, if_neg (show p ≠ num - 1 by omega), UInt16.toNat_ofNat',
              Nat.mod_eq_of_lt (show p + 1 < 2 ^ 16 by omega)]
          rw [hnext, walk_init hlt cookie (m + 1) (p + 1) (by omega)]

theorem inv_init (hlt : num < 2 ^ 16) (cookie : ℕ → Option ℕ) :
    Inv ⟨Vring.init num cookie, ⟨0, []⟩, 0⟩ := by
  have hin : Sys.inFlight (⟨Vring.init num cookie, ⟨0, []⟩, 0⟩ : Sys num) = [] := by
    simp only [inFlight, unfetched, unreclaimed, Vring.init, UInt16.sub_self, UInt16.toNat_zero,
      Ring.window_zero, List.map_nil, List.append_nil]
  refine ⟨?_, fun h hh => absurd (hin ▸ hh) List.not_mem_nil,
    fun h hh => absurd (hin ▸ hh) List.not_mem_nil, Nat.le_refl _, rfl⟩
  rw [busy, hin, List.flatMap_nil, List.append_nil, freeList]
  show (walk _ 0 (UInt16.ofNat num).toNat).Perm _
  rw [UInt16.toNat_ofNat', Nat.mod_eq_of_lt hlt, walk_init hlt cookie num 0 (by omega),
    List.range_eq_range']

/-- **The invariant holds in every reachable state.** -/
theorem inv_reachable (hdvd : num ∣ 2 ^ 16) (hlt : num < 2 ^ 16) {dev : Device}
    (hs : Transition.Reachable (vringSystem dev num) s) : Inv s :=
  Transition.Inductive.reachable
    ⟨fun _ ⟨cookie, he⟩ => he ▸ inv_init hlt cookie, fun _ _ _ hinv h => hinv.step hdvd hlt h⟩ hs

/-- The free descriptors are those of the free list. -/
theorem Inv.freeDescs_perm (hinv : Inv s) : s.freeDescs.Perm s.ring.freeList := by
  have h := hinv.partition.symm.filter fun d => decide (d ∉ s.busy)
  have hF : s.ring.freeList.filter (fun d => decide (d ∉ s.busy)) = s.ring.freeList :=
    List.filter_eq_self.mpr fun d hd =>
      decide_eq_true fun hb => List.disjoint_of_nodup_append hinv.nodup hd hb
  have hB : s.busy.filter (fun d => decide (d ∉ s.busy)) = [] :=
    List.filter_eq_nil_iff.mpr fun d hd => by simp only [decide_not, hd, decide_true, Bool.not_true,
      Bool.false_eq_true, not_false_eq_true]
  rw [List.filter_append, hF, hB, List.append_nil] at h
  exact h

/-- The indices `kick` compares `avail_event` with: the last `n` published. -/
theorem mem_published_iff {a e : UInt16} {n : ℕ} (hn : n ≤ 2 ^ 16) :
    e ∈ (List.range n).map (fun k => a - 1 - UInt16.ofNat k) ↔ (a - e - 1).toNat < n := by
  constructor
  · intro he
    obtain ⟨k, hk, rfl⟩ := List.mem_map.mp he
    rw [List.mem_range] at hk
    rw [show a - (a - 1 - UInt16.ofNat k) - 1 = UInt16.ofNat k by grind, UInt16.toNat_ofNat',
      Nat.mod_eq_of_lt (by omega)]
    exact hk
  · intro h
    refine List.mem_map.mpr ⟨(a - e - 1).toNat, List.mem_range.mpr h, ?_⟩
    rw [UInt16.ofNat_toNat]
    grind

end Sys

/-! ## A run of turns

A one-entry ring on which the host returns each buffer before the next is published: the first
`add_buf`, then turns of `wrapBlock`, in which the host takes the buffer and returns it, the
driver reads the used entry, and the next `add_buf`'s `get_buf_gc` reclaims the descriptor.
`WrapShape` is the state between turns. -/

section Turns

open Vring Sys

/-- The state after the `n + 1`-th buffer: the one descriptor published at avail index `u`, none
free, and every counter at `u` or `u + 1`. -/
structure WrapShape (s : Sys 1) (u : UInt16) (n : ℕ) : Prop where
  desc : s.ring.desc = (Vring.init 1 fun _ => none).desc
  availHead : s.ring.availHead = 0
  availCount : s.ring.availCount = 0
  hostHead : s.ring.usedRingHostHead = u
  guestHead : s.ring.usedRingGuestHead = u
  usedIdx : s.ring.usedIdx = u
  lastAvail : s.host.lastAvail = u
  taken : s.host.taken = []
  availIdx : s.ring.availIdx = u + 1
  added : s.ring.availAddedSinceKick = u + 1
  availRing : ∀ x, s.ring.availRing x = 0
  usedId : ∀ x, (s.ring.usedElements x).id = 0
  sinceKick : s.sinceKick = n + 1
  availEvent : s.ring.availEvent = 0

/-- One turn: the host takes the buffer and returns it, the driver reads the used entry, and
publishes the next buffer (whose `get_buf_gc` reclaims the descriptor). -/
def wrapBlock : List Op := [.take, .complete 0 0, .getBufFinalize, .addBuf [⟨0⟩] none]

theorem ne_add_one (u : UInt16) : u ≠ u + 1 := by
  intro h
  have := congrArg UInt16.toNat h
  rw [toNat_add_one] at this
  have := u.toNat_lt
  omega

/-- Publishing one buffer at descriptor 0 of a one-entry ring leaves the descriptor as built. -/
theorem fillChain_one {r : Vring 1} (hd : r.desc = (Vring.init 1 fun _ => none).desc)
    (hh : r.availHead = 0) : fillChain r [⟨0⟩] false = ((Vring.init 1 fun _ => none).desc, 0) := by
  simp only [fillChain, fillLoop, hd, hh, Bool.false_eq_true, if_false, UInt16.toNat_zero,
    Function.update_self, Function.update_idem]
  refine Prod.ext (funext fun x => ?_) rfl
  dsimp only
  by_cases hx : x = 0
  · subst hx
    rw [Function.update_self]
    decide
  · exact Function.update_of_ne hx _ _

/-- The host's half of a turn: it takes the published buffer and returns it, and the driver's
`get_buf_finalize` reads the used entry. -/
theorem wrap_host_run {dev : Device} {s : Sys 1} {u : UInt16} {n : ℕ} (hs : WrapShape s u n) :
    Transition.runFrom (Sys.step dev) s [.take, .complete 0 0, .getBufFinalize] = some { s with
      ring := { s.ring with
        usedElements :=
          Function.update s.ring.usedElements (Ring.slot 1 s.ring.usedIdx.toNat) ⟨UInt32.ofNat 0, 0⟩
        usedIdx := s.ring.usedIdx + 1
        usedRingHostHead := s.ring.usedRingHostHead + 1 }
      host := ⟨s.host.lastAvail + 1, []⟩ } := by
  have h1 : Sys.step dev s .take = some { s with host := ⟨s.host.lastAvail + 1, s.host.taken ++
      [(s.ring.availRing (Ring.slot 1 s.host.lastAvail.toNat)).toNat]⟩ } :=
    Sys.step_take (by rw [hs.lastAvail, hs.availIdx]; exact ne_add_one u)
  rw [hs.taken, hs.availRing] at h1
  have h2 : Sys.step dev { s with host := ⟨s.host.lastAvail + 1, [] ++ [(0 : UInt16).toNat]⟩ }
      (.complete 0 0) = some { s with
        ring := { s.ring with
          usedElements :=
            Function.update s.ring.usedElements (Ring.slot 1 s.ring.usedIdx.toNat) ⟨UInt32.ofNat 0, 0⟩
          usedIdx := s.ring.usedIdx + 1 }
        host := ⟨s.host.lastAvail + 1, []⟩ } :=
    Sys.step_complete Nat.zero_lt_one 0
  have h3 : Sys.step dev { s with
        ring := { s.ring with
          usedElements :=
            Function.update s.ring.usedElements (Ring.slot 1 s.ring.usedIdx.toNat) ⟨UInt32.ofNat 0, 0⟩
          usedIdx := s.ring.usedIdx + 1 }
        host := ⟨s.host.lastAvail + 1, []⟩ } .getBufFinalize = some { s with
      ring := { s.ring with
        usedElements :=
          Function.update s.ring.usedElements (Ring.slot 1 s.ring.usedIdx.toNat) ⟨UInt32.ofNat 0, 0⟩
        usedIdx := s.ring.usedIdx + 1
        usedRingHostHead := s.ring.usedRingHostHead + 1 }
      host := ⟨s.host.lastAvail + 1, []⟩ } :=
    Sys.step_getBufFinalize (by
      show s.ring.usedRingHostHead ≠ s.ring.usedIdx + 1
      rw [hs.hostHead, hs.usedIdx]
      exact ne_add_one u)
  simp only [Transition.runFrom_cons, h1, h2, h3, Option.bind_some, Transition.runFrom_nil]

/-- `get_buf_gc` after the host's half: the used entry names descriptor `0`, a chain of itself,
and it goes back to the free list as its head, with its link as it was. -/
theorem wrap_getBufGc {r : Vring 1} {u : UInt16} (hdesc : r.desc = (Vring.init 1 fun _ => none).desc)
    (hhead : r.availHead = 0) (hid : ∀ x, (r.usedElements x).id = 0)
    (hguest : r.usedRingGuestHead = u) (hhost : r.usedRingHostHead = u + 1) :
    getBufGc r = { r with
      usedRingGuestHead := r.usedRingGuestHead + 1
      availCount := r.availCount + 1 } := by
  have hchain : IsChain (moreOf r.desc) (nextOf r.desc)
      (r.usedElements (Ring.slot 1 r.usedRingGuestHead.toNat)).id.toNat [0] := by
    rw [hid, hdesc]
    exact .last rfl
  have hdir : (r.desc (r.usedElements (Ring.slot 1 r.usedRingGuestHead.toNat)).id.toNat).has
      VRING_DESC_F_INDIRECT = false := by
    rw [hid, hdesc]
    rfl
  have hn : (r.usedRingHostHead - r.usedRingGuestHead).toNat = 1 := by
    rw [hhost, hguest, show u + 1 - u = 1 by grind]
    rfl
  have hne : r.usedRingGuestHead ≠ r.usedRingHostHead := by
    rw [hhost, hguest]
    exact ne_add_one u
  have hlink : Function.update r.desc ([0].getLast hchain.ne_nil)
      { r.desc ([0].getLast hchain.ne_nil) with next := r.availHead } = r.desc := by
    rw [Function.update_eq_self_iff, List.getLast_singleton, hdesc, hhead]
    rfl
  rw [getBufGc, hn, gcLoop_succ_of_ne hne, gcLoop, gcOne_eq hchain hdir (by decide), hlink, hid,
    show (0 : UInt32).toUInt16 = r.availHead by rw [hhead]; rfl]
  rfl

/-- **One turn** moves every counter by one and keeps the rest. -/
theorem wrapBlock_run {dev : Device} {s : Sys 1} {u : UInt16} {n : ℕ} (hs : WrapShape s u n) :
    ∃ s', Transition.runFrom (Sys.step dev) s wrapBlock = some s' ∧ WrapShape s' (u + 1) (n + 1) := by
  -- the ring after the host's half, and after the `get_buf_gc` of the next `add_buf`
  set r3 : Vring 1 := { s.ring with
    usedElements :=
      Function.update s.ring.usedElements (Ring.slot 1 s.ring.usedIdx.toNat) ⟨UInt32.ofNat 0, 0⟩
    usedIdx := s.ring.usedIdx + 1
    usedRingHostHead := s.ring.usedRingHostHead + 1 } with hr3
  have hid3 : ∀ x, (r3.usedElements x).id = 0 := fun x => by
    by_cases hx : x = Ring.slot 1 s.ring.usedIdx.toNat
    · rw [hr3, hx]
      simp only [Function.update_self]
      rfl
    · rw [hr3]
      simp only [Function.update_of_ne hx]
      exact hs.usedId x
  set r4 : Vring 1 := { r3 with
    usedRingGuestHead := r3.usedRingGuestHead + 1
    availCount := r3.availCount + 1 } with hr4
  have hgc : getBufGc r3 = r4 :=
    wrap_getBufGc hs.desc hs.availHead hid3 hs.guestHead (congrArg (· + 1) hs.hostHead)
  have hcount4 : r4.availCount = 1 := by
    show s.ring.availCount + 1 = 1
    rw [hs.availCount, UInt16.zero_add]
  have hadd : addBuf dev r3 [⟨0⟩] none = (true, publish r4 [⟨0⟩] none false) := by
    rw [addBuf_of_le (by rw [hgc, hcount4]; decide), hgc]
  have h4 : Sys.step dev { s with ring := r3, host := ⟨s.host.lastAvail + 1, []⟩ }
      (.addBuf [⟨0⟩] none) = some { s with
        ring := publish r4 [⟨0⟩] none false
        host := ⟨s.host.lastAvail + 1, []⟩
        sinceKick := s.sinceKick + 1 } := by
    rw [Sys.step_addBuf (by decide), hadd]
    rfl
  refine ⟨{ s with
    ring := publish r4 [⟨0⟩] none false
    host := ⟨s.host.lastAvail + 1, []⟩
    sinceKick := s.sinceKick + 1 }, ?_, ?_⟩
  · rw [wrapBlock, show [Op.take, .complete 0 0, .getBufFinalize, .addBuf [⟨0⟩] none] =
      [.take, .complete 0 0, .getBufFinalize] ++ [.addBuf [⟨0⟩] none] from rfl,
      Transition.runFrom_append, wrap_host_run hs, Option.bind_some, Transition.runFrom_cons, h4,
      Option.bind_some, Transition.runFrom_nil]
  · rw [publish_eq, @fillChain_one r4 hs.desc hs.availHead]
    refine ⟨rfl, rfl, ?_, congrArg (· + 1) hs.hostHead, congrArg (· + 1) hs.guestHead,
      congrArg (· + 1) hs.usedIdx, congrArg (· + 1) hs.lastAvail, rfl, congrArg (· + 1) hs.availIdx,
      congrArg (· + 1) hs.added, fun x => ?_, hid3, congrArg (· + 1) hs.sinceKick, hs.availEvent⟩
    · show r4.availCount - UInt16.ofNat 1 = 0
      rw [hcount4]
      rfl
    · -- a ring of one entry has one slot, where the head `0` was published
      show Function.update r4.availRing (Ring.slot 1 r4.availIdx.toNat) r4.availHead x = 0
      rw [Subsingleton.elim x (Ring.slot 1 r4.availIdx.toNat), Function.update_self]
      exact hs.availHead

/-- The first `add_buf` and `k` turns after it: `k + 1` buffers published, none notified. -/
theorem wrap_run {dev : Device} (k : ℕ) :
    ∃ s, Transition.runFrom (Sys.step dev) ⟨Vring.init 1 fun _ => none, ⟨0, []⟩, 0⟩
        (.addBuf [⟨0⟩] none :: (List.replicate k wrapBlock).flatten) = some s ∧
      WrapShape s (UInt16.ofNat k) k := by
  induction k with
  | zero =>
      have hadd : addBuf dev (Vring.init 1 fun _ => none) [⟨0⟩] none =
          (true, publish (Vring.init 1 fun _ => none) [⟨0⟩] none false) :=
        addBuf_of_le (by decide)
      refine ⟨⟨publish (Vring.init 1 fun _ => none) [⟨0⟩] none false, ⟨0, []⟩, 0 + 1⟩, ?_, ?_⟩
      · rw [Transition.runFrom_cons, Sys.step_addBuf (by decide), hadd]
        rfl
      · rw [publish_eq, fillChain_one rfl rfl]
        exact ⟨rfl, rfl, rfl, rfl, rfl, rfl, rfl, rfl, rfl, rfl,
          fun x => by rw [Subsingleton.elim x 0]; rfl, fun _ => rfl, rfl, rfl⟩
  | succ k ih =>
      obtain ⟨s, hrun, hs⟩ := ih
      obtain ⟨s', hrun', hs'⟩ := @wrapBlock_run dev _ _ _ hs
      refine ⟨s', ?_, UInt16.ofNat_add k 1 ▸ hs'⟩
      rw [List.replicate_succ', List.flatten_append, ← List.cons_append, Transition.runFrom_append, hrun,
        Option.bind_some, List.flatten_singleton, hrun']

end Turns

/-! ## What the ring guarantees -/

open Sys Vring in
/-- **The descriptor bookkeeping of the virtio ring.**  For a ring of a power of two at most
`32768` descriptors, in every state reached by the driver's calls and the host's moves:

* the free list and the chains of the buffers published and not yet reclaimed partition the
  descriptors, and each such chain is marked as the host follows it;
* `add_buf` fails exactly when, after its `get_buf_gc`, fewer descriptors than buffers are free,
  and the chain it builds uses free descriptors only;
* when `avail_ring_has_room(n)` holds, `add_buf` of `n` buffers succeeds;
* with `VIRTIO_RING_F_EVENT_IDX`, and fewer than `2 ^ 16` buffers published since the last
  notification, `kick` notifies exactly when `avail_event` is one of their indices. -/
theorem vring_descriptor_bookkeeping {num : ℕ} [NeZero num] (hnum : ∃ k ≤ 15, num = 2 ^ k)
    (dev : Device) {s : Sys num} (hs : Transition.Reachable (vringSystem dev num) s) :
    ((s.ring.freeList ++ s.busy).Perm (List.range num) ∧
      ∀ h ∈ s.inFlight, Threaded.IsChain (moreOf s.ring.desc) (nextOf s.ring.desc) h (s.ring.chainOf h)) ∧
    (∀ sgVec cookie, (addBuf dev s.ring sgVec cookie).1 = false ↔
      (Sys.freeDescs { s with ring := getBufGc s.ring }).length < sgVec.length) ∧
    (∀ sgVec cookie, Direct sgVec → (addBuf dev s.ring sgVec cookie).1 = true →
      ∀ d ∈ (addBuf dev s.ring sgVec cookie).2.chainOf (getBufGc s.ring).availHead.toNat,
        d ∈ Sys.freeDescs { s with ring := getBufGc s.ring }) ∧
    (∀ sgVec cookie, availRingHasRoom dev s.ring sgVec.length = true →
      (addBuf dev s.ring sgVec cookie).1 = true) ∧
    (dev.eventIdxCap = true → s.sinceKick < 2 ^ 16 →
      ((kick dev s.ring).1 = true ↔ s.ring.availEvent ∈ s.publishedSinceKick)) := by
  obtain ⟨k, hk, rfl⟩ := hnum
  have hdvd : 2 ^ k ∣ 2 ^ 16 := Nat.pow_dvd_pow 2 (by omega)
  have hlt : 2 ^ k < 2 ^ 16 := Nat.pow_lt_pow_right (by norm_num) (by omega)
  have hinv := Sys.inv_reachable hdvd hlt hs
  obtain ⟨hgc, hroom⟩ := hinv.getBufGc hdvd hlt
  have hfree : (Sys.freeDescs { s with ring := getBufGc s.ring }).length =
      (getBufGc s.ring).availCount.toNat := by
    rw [hgc.freeDescs_perm.length_eq, length_freeList]
  refine ⟨⟨hinv.partition, hinv.chain⟩, fun sgVec cookie => ?_, fun sgVec cookie hdir hok => ?_,
    fun sgVec cookie hhas => ?_, fun hcap hsince => ?_⟩
  · rw [addBuf_fst, hfree, decide_eq_false_iff_not, Nat.not_le]
  · -- the chain is the front of the free list after `get_buf_gc`
    have hle : sgVec.length ≤ (getBufGc s.ring).availCount.toNat := by
      rwa [addBuf_fst, decide_eq_true_iff] at hok
    obtain ⟨-, p2, -⟩ := hgc.publish_lists hdvd hlt hdir hle cookie
    intro d hd
    rw [addBuf_of_le hle] at hd
    dsimp only at hd
    rw [p2] at hd
    exact hgc.freeDescs_perm.mem_iff.mpr ((List.take_sublist _ _).subset hd)
  · -- `get_buf_gc` gives back at least one descriptor per chain the room counts
    have hcount := hinv.count
    have hunrec : (s.ring.usedIdx - s.ring.usedRingGuestHead).toNat ≤ s.inFlight.length := by
      simp only [inFlight, List.length_append, unreclaimed, List.length_map, Ring.window_length]
      omega
    have hsum : (s.ring.availCount + (s.ring.usedRingHostHead - s.ring.usedRingGuestHead)).toNat =
        s.ring.availCount.toNat + (s.ring.usedRingHostHead - s.ring.usedRingGuestHead).toNat := by
      rw [UInt16.toNat_add, Nat.mod_eq_of_lt (by have := hinv.finalized; omega)]
    simp only [availRingHasRoom, useIndirect_eq_false, Bool.false_eq_true, if_false, hsum,
      decide_eq_true_eq] at hhas
    rw [addBuf_fst, decide_eq_true_iff]
    omega
  · -- `_avail_added_since_kick` is the number published since the last notification
    have hadded : s.ring.availAddedSinceKick.toNat = s.sinceKick := by
      rw [hinv.kicks, Nat.mod_eq_of_lt hsince]
    rw [kick_of_event hcap, publishedSinceKick, mem_published_iff (by omega), ← hadded,
      ← UInt16.lt_iff_toNat_lt]
    by_cases h : s.ring.availIdx - s.ring.availEvent - 1 < s.ring.availAddedSinceKick
    · rw [if_pos h]
      exact ⟨fun _ => h, fun _ => rfl⟩
    · rw [if_neg h]
      exact ⟨fun h' => absurd h' Bool.false_ne_true, fun h' => absurd h' h⟩

open Sys Vring in
/-- One turn after the first `add_buf`: the host has taken the buffer and returned it, the driver
has read the used entry, and the second `add_buf` has reclaimed the descriptor by its
`get_buf_gc` and published it again. -/
theorem vring_descriptor_bookkeeping_turn :
    ∃ s : Sys 1, Transition.Reachable (vringSystem ⟨true, false⟩ 1) s ∧ s.sinceKick = 2 ∧
      s.ring.usedRingGuestHead = 1 ∧ (∃ k ≤ 15, 1 = 2 ^ k) ∧
      ((s.ring.freeList ++ s.busy).Perm (List.range 1) ∧
        ∀ h ∈ s.inFlight, Threaded.IsChain (moreOf s.ring.desc) (nextOf s.ring.desc) h
          (s.ring.chainOf h)) ∧
      (∀ sgVec cookie, (addBuf ⟨true, false⟩ s.ring sgVec cookie).1 = false ↔
        (Sys.freeDescs { s with ring := getBufGc s.ring }).length < sgVec.length) ∧
      (∀ sgVec cookie, Direct sgVec → (addBuf ⟨true, false⟩ s.ring sgVec cookie).1 = true →
        ∀ d ∈ (addBuf ⟨true, false⟩ s.ring sgVec cookie).2.chainOf (getBufGc s.ring).availHead.toNat,
          d ∈ Sys.freeDescs { s with ring := getBufGc s.ring }) ∧
      (∀ sgVec cookie, availRingHasRoom ⟨true, false⟩ s.ring sgVec.length = true →
        (addBuf ⟨true, false⟩ s.ring sgVec cookie).1 = true) ∧
      (Device.eventIdxCap ⟨true, false⟩ = true → s.sinceKick < 2 ^ 16 →
        ((kick ⟨true, false⟩ s.ring).1 = true ↔ s.ring.availEvent ∈ s.publishedSinceKick)) :=
  have ⟨s, hrun, hs⟩ := @wrap_run ⟨true, false⟩ 1
  have hr : Transition.Reachable (vringSystem ⟨true, false⟩ 1) s :=
    Transition.reachable_of_runFrom (Transition.Reachable.init ⟨_, rfl⟩) hrun
  ⟨s, hr, hs.sinceKick, hs.guestHead, ⟨0, by decide, rfl⟩,
    vring_descriptor_bookkeeping ⟨0, by decide, rfl⟩ ⟨true, false⟩ hr⟩

/-! ## A run on which the kick counter wraps

With the event index, `kick()` notifies when `_avail->_idx - avail_event - 1`, a `u16`, is below
`_avail_added_since_kick`, a `u16` as well.  A one-descriptor ring on which the host returns each
buffer before the next is published publishes without limit, and the host need never be
notified: after `2 ^ 16` buffers the counter is back at `0`, and `kick()` returns `false` although
`avail_event` lies among the indices published since the last notification.  The run is the
first `add_buf` and then `2 ^ 16 - 1` turns of `wrapBlock`; `WrapShape` is the state between turns. -/

section KickWrap

open Vring Sys

/-- **After `2 ^ 16` publications, `kick()` is silent.**  A reachable state of a one-entry ring
whose device has the event index, `2 ^ 16` buffers published since the ring was built, `avail_event`
(`0`) the index of the first of them, and `kick()` does not notify: `_avail_added_since_kick` has
wrapped to `0`. -/
theorem vring_kick_silent_after_wrap :
    ∃ s : Sys 1, Transition.Reachable (vringSystem ⟨true, false⟩ 1) s ∧ s.sinceKick = 2 ^ 16 ∧
      s.ring.availEvent ∈ s.publishedSinceKick ∧ (Vring.kick ⟨true, false⟩ s.ring).1 = false := by
  obtain ⟨s, hrun, hs⟩ := @wrap_run ⟨true, false⟩ 65535
  have hsince : s.sinceKick = 2 ^ 16 := hs.sinceKick
  refine ⟨s, Transition.reachable_of_runFrom (Transition.Reachable.init ⟨_, rfl⟩) hrun, hsince, ?_, ?_⟩
  · rw [publishedSinceKick, hsince, mem_published_iff (Nat.le_refl _), hs.availIdx, hs.availEvent]
    decide
  · rw [kick_of_event rfl, hs.availIdx, hs.availEvent, hs.added, if_neg (by decide)]

end KickWrap

end Osv.Drivers
