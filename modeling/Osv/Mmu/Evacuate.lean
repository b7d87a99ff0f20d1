import Mathlib.Data.List.Pairwise
import Osv.Mmu.VmaList

/-!
# evacuate removes its range

**The model.**  `Osv.Mmu.evacuate` is the loop of evacuate(start, end) over the equal range,
as `rangeLoop` runs it: each vma is split at the range's end and then at its start, the
piece the range contains is erased and handed back as dead, and the loop goes on from the
element after it.

**What holds.**  On a list that keeps the representation invariant, a page-aligned non-empty
range is evacuated with fuel for the list's length and three visits more
(`evacuate_removes_range`): afterwards no vma holds an address of the range, every address
outside it is mapped as before, with the same permission and file offset, and every address
of it that was mapped is mapped so by a dead vma, each of which lies in the range.

**How.**  A split at a page-aligned edge inside a vma changes which vma holds an address,
not how it is mapped (`maps_split`).  The loop keeps `Sweep`: a frontier below which no vma
holds an address of the range, the cursor at the first vma from the frontier on, and the end
of the equal range at or above it.  Each visit moves the frontier past the vma it visits
(`Sweep.evacuateBody`).  Every vma starts where a vma of the first list starts or at an edge
of the range, so the number of those starts at or above the frontier bounds the visits left
(`rangeLoop_evacuate`).
-/

namespace Osv.Mmu

/-! ## What a list of vmas maps -/

/-- The vma holds the address. -/
def Vma.Holds (v : Vma) (x : ℕ) : Prop := v.start ≤ x ∧ x < v.stop

/-- The vma holds no address of [start, stop). -/
def Vma.Avoids (v : Vma) (start stop : ℕ) : Prop := ∀ x, v.Holds x → x < start ∨ stop ≤ x

/-- A vma of the list holds `x`, with permission `perm` and file offset `off` there (none
for anonymous memory). -/
def Maps (vs : List Vma) (x perm : ℕ) (off : Option ℕ) : Prop :=
  ∃ v ∈ vs, v.Holds x ∧ v.perm = perm ∧ v.offset x = off

theorem Vma.avoids_of_le {v : Vma} {start stop : ℕ}
    (h : v.stop ≤ start ∨ stop ≤ v.start ∨ v.stop ≤ v.start) : v.Avoids start stop := by
  intro x hx
  unfold Vma.Holds at hx
  omega

theorem maps_append {vs ws : List Vma} {x perm : ℕ} {off : Option ℕ} :
    Maps (vs ++ ws) x perm off ↔ Maps vs x perm off ∨ Maps ws x perm off := by
  simp only [Maps, List.mem_append, or_and_right, exists_or]

theorem not_maps_nil {x perm : ℕ} {off : Option ℕ} : ¬ Maps [] x perm off := by
  simp [Maps]

/-- Erasing the one vma of an identity takes away what it maps and nothing else. -/
theorem maps_erase {vs : List Vma} {w : Vma} (hw : w ∈ vs) (hid : ∀ u ∈ vs, u.id = w.id → u = w)
    {x perm : ℕ} {off : Option ℕ} :
    Maps vs x perm off ↔ Maps (vs.filter (·.id ≠ w.id)) x perm off ∨ Maps [w] x perm off := by
  constructor
  · rintro ⟨u, hu, hux⟩
    by_cases he : u.id = w.id
    · exact .inr ⟨w, List.mem_singleton_self w, hid u hu he ▸ hux⟩
    · exact .inl ⟨u, List.mem_filter.2 ⟨hu, by simpa using he⟩, hux⟩
  · rintro (⟨u, hu, hux⟩ | ⟨u, hu, hux⟩)
    · exact ⟨u, List.mem_of_mem_filter hu, hux⟩
    · exact ⟨u, List.mem_singleton.1 hu ▸ hw, hux⟩

/-! ## Page-aligned edges -/

theorem alignDown_of_aligned {n : ℕ} (h : n % pageSize = 0) : alignDown n = n :=
  Nat.div_mul_cancel (Nat.dvd_of_mod_eq_zero h)

theorem alignUp_of_aligned {n : ℕ} (h : n % pageSize = 0) (hn : n ≤ areaEnd) : alignUp n = n := by
  unfold alignUp alignDown uadd
  unfold pageSize areaEnd at *
  rw [Nat.mod_eq_of_lt (by unfold wordSize; omega)]
  omega

theorem Vma.offset_lt {v : Vma} {x off : ℕ} (h : v.offset x = some off) : off < wordSize := by
  unfold Vma.offset uadd at h
  split at h
  · cases h
  · cases h
    exact Nat.mod_lt _ (by decide)

@[simp] theorem Vma.piece_perm (v : Vma) (id edge : ℕ) : (v.piece id edge).perm = v.perm := by
  unfold Vma.piece
  split <;> rfl

@[simp] theorem Vma.piece_start (v : Vma) (id edge : ℕ) :
    (v.piece id edge).start = alignDown edge := by
  unfold Vma.piece
  split <;> rfl

@[simp] theorem Vma.piece_stop (v : Vma) (id edge : ℕ) :
    (v.piece id edge).stop = alignUp v.stop := by
  unfold Vma.piece
  split <;> rfl

/-- The piece split off at a page-aligned edge maps each of its addresses to the file offset
the vma did; an anonymous piece has none, as the vma. -/
theorem offset_piece_aligned {v : Vma} {id edge x : ℕ} (hs : v.start % pageSize = 0)
    (he : edge % pageSize = 0) (hedge : v.start < edge) (hew : edge < wordSize)
    (hx : edge ≤ x) (hxw : x < wordSize) : (v.piece id edge).offset x = v.offset x := by
  cases hk : v.kind with
  | anon => simp [Vma.piece, Vma.offset, hk, newVma]
  | file o =>
      rw [offset_piece hk id edge x hs hedge hew (by simpa [alignDown_of_aligned he]) hxw, he]
      cases ho : v.offset x with
      | none => rfl
      | some off =>
          simp only [Option.map_some, Option.some.injEq]
          unfold uadd
          exact Nat.mod_eq_of_lt (Vma.offset_lt ho)

/-! ## What evacuate keeps of the representation invariant -/

/-- The representation invariant without its markers, as facts about members: a vma that
starts before another ends by that one's start, and each is ordered, page aligned and ends
within the area. -/
structure Layout (vs : List Vma) : Prop where
  disjoint : ∀ u ∈ vs, ∀ w ∈ vs, u.start < w.start → u.stop ≤ w.start
  ordered : ∀ v ∈ vs, v.start ≤ v.stop
  aligned : ∀ v ∈ vs, v.start % pageSize = 0 ∧ v.stop % pageSize = 0
  bounded : ∀ v ∈ vs, v.stop ≤ areaEnd

theorem Layout.mono {vs ws : List Vma} (h : Layout vs) (hs : ∀ v ∈ ws, v ∈ vs) : Layout ws where
  disjoint u hu w hw := h.disjoint u (hs u hu) w (hs w hw)
  ordered v hv := h.ordered v (hs v hv)
  aligned v hv := h.aligned v (hs v hv)
  bounded v hv := h.bounded v (hs v hv)

/-- Two vmas of a list in the set's order start apart. -/
theorem Inv.start_ne {l : VmaList} (h : Inv l) {u w : Vma} (hu : u ∈ l.vmas) (hw : w ∈ l.vmas)
    (hne : u ≠ w) : u.start ≠ w.start :=
  @List.Pairwise.forall _ (fun a b : Vma => a.start ≠ b.start) _ ⟨fun _ _ hab => Ne.symm hab⟩
    (h.sorted.imp Nat.ne_of_lt) u hu w hw hne

theorem Inv.eq_of_id_eq {l : VmaList} (h : Inv l) {u w : Vma} (hu : u ∈ l.vmas)
    (hw : w ∈ l.vmas) (hid : u.id = w.id) : u = w :=
  Osv.Mmu.eq_of_id_eq h.distinct hu hw hid

theorem WellFormed.layout {vs : List Vma} (hw : WellFormed vs) : Layout vs where
  disjoint u hu w hw' hlt := by
    -- the list's order puts one of the two first; it cannot be `w`, which starts later
    have hR := @List.Pairwise.forall _ (fun a b : Vma => a.stop ≤ b.start ∨ b.stop ≤ a.start) _
      ⟨fun _ _ hab => hab.symm⟩ (hw.disjoint.imp Or.inl) u hu w hw' (by rintro rfl; omega)
    have := hw.start_le_stop hw'
    omega
  ordered v hv := hw.start_le_stop hv
  aligned := hw.aligned
  bounded v hv := hw.stop_le_areaEnd hv

/-- Apart from the vma itself, every vma of the list lies wholly before or after it. -/
theorem Layout.separate {l : VmaList} (hl : Inv l) (hL : Layout l.vmas) {v w : Vma}
    (hv : v ∈ l.vmas) (hw : w ∈ l.vmas) (hne : w.id ≠ v.id) :
    w.stop ≤ v.start ∨ v.stop ≤ w.start := by
  have hs := hl.start_ne hw hv (fun h => hne (h ▸ rfl))
  rcases Nat.lt_or_gt_of_ne hs with hlt | hlt
  · exact .inl (hL.disjoint w hw v hv hlt)
  · exact .inr (hL.disjoint v hv w hw hlt)

/-! ## A split at a page-aligned edge -/

theorem mem_insertVma_of_mem {v x : Vma} {vs : List Vma} (h : x ∈ vs) : x ∈ insertVma v vs := by
  rcases insertVma_eq_or_perm v vs with he | hp
  · rwa [he]
  · exact hp.mem_iff.2 (List.mem_cons_of_mem v h)

/-- A vma whose start no element has is inserted. -/
theorem mem_insertVma_self {v : Vma} :
    ∀ {vs : List Vma}, (∀ u ∈ vs, u.start ≠ v.start) → v ∈ insertVma v vs
  | [], _ => List.mem_singleton_self v
  | x :: xs, h => by
      rw [insertVma_cons]
      split_ifs with hlt heq
      · exact List.mem_cons_self
      · exact absurd heq.symm (h x List.mem_cons_self)
      · exact List.mem_cons_of_mem x
          (mem_insertVma_self fun u hu => h u (List.mem_cons_of_mem x hu))

namespace VmaList

variable {l : VmaList} {v u : Vma} {e : ℕ}

theorem split_snd : (l.split v e).2 = if v.start < e ∧ e < v.stop then { v with stop := e } else v := by
  unfold split
  split_ifs with h₁ h₂ h₂ <;> first | rfl | omega

@[simp] theorem split_snd_id : (l.split v e).2.id = v.id := by
  rw [split_snd]
  split_ifs <;> rfl

@[simp] theorem split_snd_start : (l.split v e).2.start = v.start := by
  rw [split_snd]
  split_ifs <;> rfl

@[simp] theorem split_snd_perm : (l.split v e).2.perm = v.perm := by
  rw [split_snd]
  split_ifs <;> rfl

@[simp] theorem split_snd_offset (x : ℕ) : (l.split v e).2.offset x = v.offset x := by
  rw [split_snd]
  split_ifs <;> rfl

theorem split_snd_stop : (l.split v e).2.stop = if v.start < e ∧ e < v.stop then e else v.stop := by
  rw [split_snd]
  split_ifs <;> rfl

theorem split_of_inside (h₁ : v.start < e) (h₂ : e < v.stop) :
    (l.split v e).1 = ⟨insertVma (v.piece l.next e)
      (l.vmas.map fun x => if x.id = v.id then { x with stop := e } else x), l.next + 1⟩ := by
  unfold split
  rw [if_neg (by omega)]

theorem split_of_outside (h : ¬ (v.start < e ∧ e < v.stop)) : (l.split v e).1 = l := by
  unfold split
  rw [if_pos (by omega)]

/-- **What a split holds**: the vma as the split leaves it, the others as they were, and the
piece from the edge on when the edge lies inside. -/
theorem mem_split (hl : Inv l) (hv : v ∈ l.vmas) (hu : u ∈ (l.split v e).1.vmas) :
    u = (l.split v e).2 ∨ (u ∈ l.vmas ∧ u.id ≠ v.id) ∨
      (v.start < e ∧ e < v.stop ∧ u = v.piece l.next e) := by
  by_cases hin : v.start < e ∧ e < v.stop
  · rw [split_of_inside hin.1 hin.2] at hu
    rw [split_snd, if_pos hin]
    rcases mem_insertVma hu with rfl | hu
    · exact .inr (.inr ⟨hin.1, hin.2, rfl⟩)
    · obtain ⟨w, hw, rfl⟩ := List.mem_map.1 hu
      by_cases hid : w.id = v.id
      · rw [if_pos hid, hl.eq_of_id_eq hw hv hid]
        exact .inl rfl
      · rw [if_neg hid]
        exact .inr (.inl ⟨hw, hid⟩)
  · rw [split_of_outside hin] at hu
    rw [split_snd, if_neg hin]
    by_cases hid : u.id = v.id
    · exact .inl (hl.eq_of_id_eq hu hv hid)
    · exact .inr (.inl ⟨hu, hid⟩)

theorem mem_split_of_ne (hu : u ∈ l.vmas) (hne : u.id ≠ v.id) : u ∈ (l.split v e).1.vmas := by
  by_cases hin : v.start < e ∧ e < v.stop
  · rw [split_of_inside hin.1 hin.2]
    exact mem_insertVma_of_mem (List.mem_map.2 ⟨u, hu, if_neg hne⟩)
  · rwa [split_of_outside hin]

theorem split_snd_mem (hv : v ∈ l.vmas) : (l.split v e).2 ∈ (l.split v e).1.vmas := by
  by_cases hin : v.start < e ∧ e < v.stop
  · rw [split_of_inside hin.1 hin.2, split_snd, if_pos hin]
    exact mem_insertVma_of_mem (List.mem_map.2 ⟨v, hv, if_pos rfl⟩)
  · rw [split_of_outside hin, split_snd, if_neg hin]
    exact hv

/-- The piece is inserted: no vma of the list starts at an edge inside another. -/
theorem piece_mem_split (hl : Inv l) (hL : Layout l.vmas) (hv : v ∈ l.vmas)
    (he : e % pageSize = 0) (h₁ : v.start < e) (h₂ : e < v.stop) :
    v.piece l.next e ∈ (l.split v e).1.vmas := by
  rw [split_of_inside h₁ h₂]
  refine mem_insertVma_self fun w' hw' => ?_
  obtain ⟨w, hw, rfl⟩ := List.mem_map.1 hw'
  rw [Vma.piece_start, alignDown_of_aligned he]
  by_cases hid : w.id = v.id
  · rw [if_pos hid, hl.eq_of_id_eq hw hv hid]
    exact Nat.ne_of_lt h₁
  · rw [if_neg hid]
    have := hL.separate hl hv hw hid
    have := hL.ordered w hw
    omega

/-- The two pieces of a vma split at a page-aligned edge inside it. -/
theorem split_pieces (hL : Layout l.vmas) (hv : v ∈ l.vmas) (he : e % pageSize = 0)
    (hin : v.start < e ∧ e < v.stop) :
    (l.split v e).2.start = v.start ∧ (l.split v e).2.stop = e ∧
      (v.piece l.next e).start = e ∧ (v.piece l.next e).stop = v.stop := by
  refine ⟨split_snd_start, by rw [split_snd_stop, if_pos hin], ?_, ?_⟩
  · rw [Vma.piece_start, alignDown_of_aligned he]
  · rw [Vma.piece_stop, alignUp_of_aligned (hL.aligned v hv).2 (hL.bounded v hv)]

theorem layout_split (hl : Inv l) (hL : Layout l.vmas) (hv : v ∈ l.vmas)
    (he : e % pageSize = 0) : Layout (l.split v e).1.vmas := by
  by_cases hin : v.start < e ∧ e < v.stop
  · obtain ⟨hc₁, hc₂, hp₁, hp₂⟩ := split_pieces hL hv he hin
    have hva := hL.aligned v hv
    have hvb := hL.bounded v hv
    -- each vma of the split is the vma up to the edge, one of the others, or the piece
    have hcls : ∀ u ∈ (l.split v e).1.vmas, (u.start = v.start ∧ u.stop = e) ∨
        (u ∈ l.vmas ∧ u.id ≠ v.id) ∨ (u.start = e ∧ u.stop = v.stop) := by
      intro u hu
      rcases mem_split hl hv hu with rfl | h | ⟨-, -, rfl⟩
      · exact .inl ⟨hc₁, hc₂⟩
      · exact .inr (.inl h)
      · exact .inr (.inr ⟨hp₁, hp₂⟩)
    refine ⟨fun u hu w hw hlt => ?_, fun u hu => ?_, fun u hu => ?_, fun u hu => ?_⟩
    · rcases hcls u hu with hu' | ⟨hu', hun⟩ | hu' <;>
        rcases hcls w hw with hw' | ⟨hw', hwn⟩ | hw'
      · omega
      · have := hL.separate hl hv hw' hwn
        have := hL.ordered w hw'
        omega
      · omega
      · have := hL.separate hl hv hu' hun
        omega
      · exact hL.disjoint u hu' w hw' hlt
      · have := hL.separate hl hv hu' hun
        have := hL.ordered u hu'
        omega
      · omega
      · have := hL.separate hl hv hw' hwn
        have := hL.ordered w hw'
        omega
      · omega
    · rcases hcls u hu with h | ⟨h, -⟩ | h
      · omega
      · exact hL.ordered u h
      · omega
    · rcases hcls u hu with h | ⟨h, -⟩ | h
      · rw [h.1, h.2]
        exact ⟨hva.1, he⟩
      · exact hL.aligned u h
      · rw [h.1, h.2]
        exact ⟨he, hva.2⟩
    · rcases hcls u hu with h | ⟨h, -⟩ | h
      · omega
      · exact hL.bounded u h
      · omega
  · rw [split_of_outside hin]
    exact hL

theorem areaEnd_lt_wordSize : areaEnd < wordSize := by decide

/-- **A split at a page-aligned edge maps what the list mapped**, each address with the
permission and file offset it had. -/
theorem maps_split (hl : Inv l) (hL : Layout l.vmas) (hv : v ∈ l.vmas) (he : e % pageSize = 0)
    {x perm : ℕ} {off : Option ℕ} :
    Maps (l.split v e).1.vmas x perm off ↔ Maps l.vmas x perm off := by
  by_cases hin : v.start < e ∧ e < v.stop
  · obtain ⟨hc₁, hc₂, hp₁, hp₂⟩ := split_pieces hL hv he hin
    have hvs := (hL.aligned v hv).1
    have hvb := hL.bounded v hv
    have haw := areaEnd_lt_wordSize
    have hew : e < wordSize := by omega
    constructor
    · rintro ⟨u, hu, hx, hp, ho⟩
      unfold Vma.Holds at hx
      rcases mem_split hl hv hu with rfl | ⟨hu', -⟩ | ⟨-, -, rfl⟩
      · refine ⟨v, hv, ⟨?_, ?_⟩, by simpa using hp, by simpa using ho⟩ <;> omega
      · exact ⟨u, hu', hx, hp, ho⟩
      · -- the piece from the edge on continues the file where the vma was
        rw [offset_piece_aligned hvs he hin.1 hew (by omega) (by omega)] at ho
        refine ⟨v, hv, ⟨?_, ?_⟩, by simpa using hp, ho⟩ <;> omega
    · rintro ⟨w, hw, hx, hp, ho⟩
      unfold Vma.Holds at hx
      by_cases hid : w.id = v.id
      · obtain rfl := hl.eq_of_id_eq hw hv hid
        by_cases hxe : x < e
        · refine ⟨(l.split w e).2, split_snd_mem hw, ⟨?_, ?_⟩, by simpa using hp,
            by simpa using ho⟩ <;> omega
        · refine ⟨w.piece l.next e, piece_mem_split hl hL hw he hin.1 hin.2, ⟨?_, ?_⟩,
            by simpa using hp, ?_⟩
          · omega
          · omega
          · rw [offset_piece_aligned hvs he hin.1 hew (by omega) (by omega)]
            exact ho
      · exact ⟨w, mem_split_of_ne hw hid, hx, hp, ho⟩
  · rw [split_of_outside hin]

/-! ## Both edges -/

section SplitAround

variable {start stop : ℕ}

@[simp] theorem splitAround_snd_id : (l.splitAround v start stop).2.id = v.id := by
  simp [splitAround]

@[simp] theorem splitAround_snd_start : (l.splitAround v start stop).2.start = v.start := by
  simp [splitAround]

@[simp] theorem splitAround_snd_perm : (l.splitAround v start stop).2.perm = v.perm := by
  simp [splitAround]

@[simp] theorem splitAround_snd_offset (x : ℕ) :
    (l.splitAround v start stop).2.offset x = v.offset x := by
  simp [splitAround]

theorem splitAround_snd_mem (hv : v ∈ l.vmas) :
    (l.splitAround v start stop).2 ∈ (l.splitAround v start stop).1.vmas :=
  split_snd_mem (split_snd_mem hv)

theorem mem_splitAround_of_ne (hu : u ∈ l.vmas) (hne : u.id ≠ v.id) :
    u ∈ (l.splitAround v start stop).1.vmas :=
  mem_split_of_ne (mem_split_of_ne hu hne) (by rwa [split_snd_id])

/-- What the two splits hold: the vma as they leave it, the others, and pieces that start at
an edge above the vma's start. -/
theorem mem_splitAround (hl : Inv l) (hv : v ∈ l.vmas) (hs : start % pageSize = 0)
    (ht : stop % pageSize = 0) (hu : u ∈ (l.splitAround v start stop).1.vmas) :
    u = (l.splitAround v start stop).2 ∨ (u ∈ l.vmas ∧ u.id ≠ v.id) ∨
      (v.start < u.start ∧ (u.start = start ∨ u.start = stop)) := by
  have h₁ := (hl.split v stop).1
  rcases mem_split h₁ (split_snd_mem hv) hu with h | ⟨hu₁, hne⟩ | ⟨hlt, -, rfl⟩
  · exact .inl h
  · rw [split_snd_id] at hne
    rcases mem_split hl hv hu₁ with rfl | h | ⟨hlt, -, rfl⟩
    · exact absurd split_snd_id hne
    · exact .inr (.inl h)
    · exact .inr (.inr ⟨by simpa [alignDown_of_aligned ht] using hlt, .inr (by simp [alignDown_of_aligned ht])⟩)
  · rw [split_snd_start] at hlt
    exact .inr (.inr ⟨by simpa [alignDown_of_aligned hs] using hlt, .inl (by simp [alignDown_of_aligned hs])⟩)

theorem layout_splitAround (hl : Inv l) (hL : Layout l.vmas) (hv : v ∈ l.vmas)
    (hs : start % pageSize = 0) (ht : stop % pageSize = 0) :
    Layout (l.splitAround v start stop).1.vmas :=
  layout_split (hl.split v stop).1 (layout_split hl hL hv ht) (split_snd_mem hv) hs

theorem maps_splitAround (hl : Inv l) (hL : Layout l.vmas) (hv : v ∈ l.vmas)
    (hs : start % pageSize = 0) (ht : stop % pageSize = 0) {x perm : ℕ} {off : Option ℕ} :
    Maps (l.splitAround v start stop).1.vmas x perm off ↔ Maps l.vmas x perm off :=
  (maps_split (hl.split v stop).1 (layout_split hl hL hv ht) (split_snd_mem hv) hs).trans
    (maps_split hl hL hv ht)

/-- After both splits the vma lies in the range or holds none of it. -/
theorem splitAround_snd_contains_or_avoids :
    contains start stop (l.splitAround v start stop).2 = true ∨
      (l.splitAround v start stop).2.Avoids start stop := by
  have hstop : (l.splitAround v start stop).2.stop =
      if v.start < start ∧ start < (l.split v stop).2.stop then start
      else (l.split v stop).2.stop := by
    rw [splitAround, split_snd_stop, split_snd_start]
  have hstop₁ := split_snd_stop (l := l) (v := v) (e := stop)
  unfold contains
  rw [Bool.and_eq_true, decide_eq_true_iff, decide_eq_true_iff]
  by_cases hc : start ≤ v.start ∧ (l.splitAround v start stop).2.stop ≤ stop
  · exact .inl (by rwa [splitAround_snd_start])
  · refine .inr (Vma.avoids_of_le ?_)
    simp only [splitAround_snd_start]
    split_ifs at hstop hstop₁ <;> omega

end SplitAround

/-! ## The cursor -/

/-- ++ on a list in the set's order goes to the vma that starts next. -/
theorem nextOf_spec : ∀ {vs : List Vma}, vs.Pairwise (fun a b => a.start < b.start) →
    vs.Pairwise (fun a b => a.id ≠ b.id) → ∀ {c : Vma}, c ∈ vs →
    (∀ j, nextOf c.id vs = some j → ∃ n ∈ vs, n.id = j ∧ c.start < n.start ∧
      ∀ u ∈ vs, c.start < u.start → n.start ≤ u.start) ∧
    (nextOf c.id vs = none → ∀ u ∈ vs, u.start ≤ c.start)
  | [], _, _, _, hc => absurd hc List.not_mem_nil
  | x :: xs, hs, hd, c, hc => by
      have hsx := (List.pairwise_cons.1 hs).1
      unfold nextOf
      by_cases hx : x.id = c.id
      · -- the cursor is the head; the next vma is the one after it
        have hxc : x = c := by
          rcases List.mem_cons.1 hc with rfl | hc
          · rfl
          · exact absurd hx ((List.pairwise_cons.1 hd).1 c hc)
        subst hxc
        rw [if_pos hx]
        cases xs with
        | nil =>
            refine ⟨fun j hj => (by cases hj), fun _ u hu => ?_⟩
            rw [List.mem_singleton.1 hu]
        | cons y ys =>
            refine ⟨fun j hj => ?_, fun hj => by cases hj⟩
            cases hj
            refine ⟨y, List.mem_cons_of_mem _ List.mem_cons_self, rfl,
              hsx y List.mem_cons_self, fun u hu hlt => ?_⟩
            rcases List.mem_cons.1 hu with rfl | hu
            · exact absurd hlt (Nat.lt_irrefl _)
            rcases List.mem_cons.1 hu with rfl | hu
            · exact Nat.le_refl _
            · exact Nat.le_of_lt ((List.pairwise_cons.1 (List.pairwise_cons.1 hs).2).1 u hu)
      · rw [if_neg hx]
        have hc' : c ∈ xs := by
          rcases List.mem_cons.1 hc with rfl | hc
          · exact absurd rfl hx
          · exact hc
        have hxlt := hsx c hc'
        obtain ⟨ih₁, ih₂⟩ := nextOf_spec (List.pairwise_cons.1 hs).2 (List.pairwise_cons.1 hd).2 hc'
        refine ⟨fun j hj => ?_, fun hj u hu => ?_⟩
        · obtain ⟨n, hn, hnj, hcn, hmin⟩ := ih₁ j hj
          refine ⟨n, List.mem_cons_of_mem x hn, hnj, hcn, fun u hu hlt => ?_⟩
          rcases List.mem_cons.1 hu with rfl | hu
          · omega
          · exact hmin u hu hlt
        · rcases List.mem_cons.1 hu with rfl | hu
          · exact Nat.le_of_lt hxlt
          · exact ih₂ hj u hu

theorem find_eq_of_mem (hd : l.vmas.Pairwise fun a b => a.id ≠ b.id) {c : Vma}
    (hc : c ∈ l.vmas) : l.find c.id = some c := by
  have hsome : (l.vmas.find? (·.id = c.id)).isSome := List.find?_isSome.2 ⟨c, hc, by simp⟩
  obtain ⟨d, hfd⟩ := Option.isSome_iff_exists.1 hsome
  have hdc : d = c :=
    Osv.Mmu.eq_of_id_eq hd (List.mem_of_find?_eq_some hfd) hc (by simpa using List.find?_some hfd)
  unfold find
  rw [hfd, hdc]

end VmaList

open VmaList

/-- In a list in the set's order, the vma a search finds first starts at or before every vma
the search would accept. -/
theorem find?_first {vs : List Vma} (hs : vs.Pairwise fun a b => a.start < b.start)
    {p : Vma → Bool} {c v : Vma} (hf : vs.find? p = some c) (hv : v ∈ vs)
    (hlt : v.start < c.start) : p v = false := by
  obtain ⟨-, as, bs, rfl, has⟩ := List.find?_eq_some_iff_append.1 hf
  rcases List.mem_append.1 hv with hv | hv
  · simpa using has v hv
  · have hc := (List.pairwise_append.1 hs).2.1
    rcases List.mem_cons.1 hv with rfl | hv
    · exact absurd hlt (Nat.lt_irrefl _)
    · exact absurd ((List.pairwise_cons.1 hc).1 v hv) (Nat.not_lt.2 (Nat.le_of_lt hlt))

/-- A vma of a list in the set's order with a vma below it is not the list's head. -/
theorem head_id_ne {l : VmaList} (hl : Inv l) {c h : Vma} (hc : c ∈ l.vmas) (hh : h ∈ l.vmas)
    (hlt : h.start < c.start) : l.vmas.head?.map Vma.id ≠ some c.id := by
  cases hvs : l.vmas with
  | nil => simp
  | cons y ys =>
      rw [hvs] at hh hc
      have hy : y.start ≤ h.start := by
        rcases List.mem_cons.1 hh with rfl | hh
        · exact Nat.le_refl _
        · exact Nat.le_of_lt ((List.pairwise_cons.1 (hvs ▸ hl.sorted)).1 h hh)
      intro hid
      have hyc : y = c :=
        hl.eq_of_id_eq (hvs ▸ List.mem_cons_self) (hvs ▸ hc) (by simpa using hid)
      subst hyc
      omega

theorem length_filter_lt {S : List ℕ} {a b : ℕ} (hb : b ∈ S) (hab : a ≤ b) :
    (S.filter (b + 1 ≤ ·)).length < (S.filter (a ≤ ·)).length := by
  have hsub : S.filter (b + 1 ≤ ·) = (S.filter (a ≤ ·)).filter (b + 1 ≤ ·) := by
    rw [List.filter_filter]
    refine List.filter_congr fun x _ => ?_
    by_cases h : b + 1 ≤ x
    · simp [h, show a ≤ x by omega]
    · simp [h]
  rw [hsub]
  exact List.length_filter_lt_length_iff_exists.2 ⟨b, List.mem_filter.2 ⟨hb, by simpa⟩, by simp⟩

/-! ## The sweep -/

section Sweep

variable {start stop : ℕ} {S : List ℕ} {last : Option ℕ}

/-- evacuate's loop at the frontier `a` with its cursor `cur`, before the end `last` of its
equal range: no vma below the frontier holds an address of the range, one lies below it
(the bottom marker, which the loop never reaches), the cursor is the first vma from the
frontier on, and the end of the equal range is a vma from the frontier on that starts at or
after the range's end.  Every vma starts at one of the places `S`. -/
structure Sweep (start stop : ℕ) (S : List ℕ) (last : Option ℕ) (l : VmaList) (a : ℕ)
    (cur : Option ℕ) : Prop where
  inv : Inv l
  layout : Layout l.vmas
  starts : ∀ v ∈ l.vmas, v.start ∈ S
  passed : ∀ v ∈ l.vmas, v.start < a → v.Avoids start stop
  below : ∃ h ∈ l.vmas, h.start < a
  cursor_some : ∀ i, cur = some i → ∃ c ∈ l.vmas, c.id = i ∧ a ≤ c.start ∧
    ∀ u ∈ l.vmas, a ≤ u.start → c.start ≤ u.start
  cursor_none : cur = none → ∀ u ∈ l.vmas, u.start < a
  last_some : ∀ j, last = some j → ∃ L ∈ l.vmas, L.id = j ∧ stop ≤ L.start ∧ a ≤ L.start

/-- What evacuate leaves of `l`: the list `l'`, of which no vma holds an address of the
range and which maps every address outside it as `l` did, and the dead vmas, which lie in
the range, page aligned, and map every address of it as `l` did. -/
structure Evacuated (start stop : ℕ) (l l' : VmaList) (dead : List Vma) : Prop where
  avoids : ∀ v ∈ l'.vmas, v.Avoids start stop
  outside : ∀ x perm off, x < start ∨ stop ≤ x →
    (Maps l'.vmas x perm off ↔ Maps l.vmas x perm off)
  inside : ∀ x perm off, start ≤ x → x < stop →
    (Maps dead x perm off ↔ Maps l.vmas x perm off)
  dead : ∀ d ∈ dead, contains start stop d = true ∧ d.start ≤ d.stop ∧
    d.start % pageSize = 0 ∧ d.stop % pageSize = 0
  layout : Layout l'.vmas

/-- The loop stops at the end of its equal range, or at end() when the range reaches past
the last vma: then every vma holds nothing of the range, and nothing is dead. -/
theorem Sweep.evacuated_of_last {l : VmaList} {a : ℕ} {cur : Option ℕ}
    (hw : Sweep start stop S last l a cur) (hcl : cur = last) : Evacuated start stop l l [] := by
  have havoid : ∀ v ∈ l.vmas, v.Avoids start stop := by
    intro v hv
    by_cases hva : v.start < a
    · exact hw.passed v hv hva
    · cases hcur : cur with
      | none => exact absurd (hw.cursor_none hcur v hv) hva
      | some i =>
          -- the cursor is the end of the equal range, which starts at or after `stop`
          obtain ⟨c, hc, rfl, -, hmin⟩ := hw.cursor_some i hcur
          obtain ⟨L, hL, hLi, hLs, -⟩ := hw.last_some c.id (hcl ▸ hcur)
          obtain rfl := hw.inv.eq_of_id_eq hL hc hLi
          exact Vma.avoids_of_le (.inr (.inl (Nat.le_trans hLs (hmin v hv (by omega)))))
  refine ⟨havoid, fun _ _ _ _ => Iff.rfl, fun x perm off hx hxs => ?_, by simp, hw.layout⟩
  simp only [not_maps_nil, false_iff]
  rintro ⟨v, hv, hxv, -⟩
  rcases havoid v hv x hxv with h | h <;> omega

/-- What one visit of evacuate's loop does, from `l` to `l'`: outside the range the list maps
what it did; inside it, what the list mapped is mapped by the list or by the dead vmas,
which lie in the range, page aligned. -/
structure Visited (start stop : ℕ) (l l' : VmaList) (dead : List Vma) : Prop where
  outside : ∀ x perm off, x < start ∨ stop ≤ x →
    (Maps l'.vmas x perm off ↔ Maps l.vmas x perm off)
  inside : ∀ x perm off, start ≤ x → x < stop →
    (Maps l'.vmas x perm off ∨ Maps dead x perm off ↔ Maps l.vmas x perm off)
  dead : ∀ d ∈ dead, contains start stop d = true ∧ d.start ≤ d.stop ∧
    d.start % pageSize = 0 ∧ d.stop % pageSize = 0

/-- A visit followed by the rest of the loop. -/
theorem Visited.evacuated {l₁ l₂ l₃ : VmaList} {dead₁ dead₂ : List Vma}
    (h₁ : Visited start stop l₁ l₂ dead₁) (h₂ : Evacuated start stop l₂ l₃ dead₂) :
    Evacuated start stop l₁ l₃ (dead₁ ++ dead₂) where
  avoids := h₂.avoids
  outside x perm off hx := (h₂.outside x perm off hx).trans (h₁.outside x perm off hx)
  inside x perm off hx hxs := by
    rw [maps_append, ← h₁.inside x perm off hx hxs, ← h₂.inside x perm off hx hxs, or_comm]
  dead d hd := by
    rcases List.mem_append.1 hd with hd | hd
    · exact h₁.dead d hd
    · exact h₂.dead d hd
  layout := h₂.layout

/-- The state after a visit: the frontier moves past the cursor `c`, which the splits left as
`c₂` in `l₂`; `l₃` is `l₂`, or `l₂` without `c₂` when the range contains it.  ++ goes from
`c₂` to the vma that starts next. -/
theorem Sweep.advance {l l₂ l₃ : VmaList} {a : ℕ} {c c₂ : Vma}
    (hw : Sweep start stop S last l a (some c.id)) (hc : c ∈ l.vmas) (hne : some c.id ≠ last)
    (h₂ : Inv l₂) (hc₂ : c₂ ∈ l₂.vmas) (hid₂ : c₂.id = c.id) (hst₂ : c₂.start = c.start)
    (hmem : ∀ u ∈ l₂.vmas, u = c₂ ∨ (u ∈ l.vmas ∧ u.id ≠ c.id) ∨
      (c.start < u.start ∧ u.start ∈ S))
    (hkeep : ∀ u ∈ l.vmas, u.id ≠ c.id → u ∈ l₂.vmas)
    (h₃ : Inv l₃) (hL₃ : Layout l₃.vmas) (hsub : ∀ u ∈ l₃.vmas, u ∈ l₂.vmas)
    (hkeep₃ : ∀ u ∈ l₂.vmas, u.id ≠ c.id → u ∈ l₃.vmas)
    (havoid : c₂ ∈ l₃.vmas → c₂.Avoids start stop) :
    Sweep start stop S last l₃ (c.start + 1) (nextOf c₂.id l₂.vmas) := by
  obtain ⟨c', hc', hcid, hac, hmin⟩ := hw.cursor_some c.id rfl
  obtain rfl := hw.inv.eq_of_id_eq hc hc' hcid.symm
  obtain ⟨hnext, hnone⟩ := nextOf_spec h₂.sorted h₂.distinct hc₂
  rw [hst₂] at hnext hnone
  -- a vma of the list other than the cursor starts apart from it
  have hapart : ∀ u ∈ l.vmas, u.id ≠ c.id → u.start ≠ c.start :=
    fun u hu hne' => hw.inv.start_ne hu hc fun h => hne' (h ▸ rfl)
  refine ⟨h₃, hL₃, fun u hu => ?_, fun u hu hlt => ?_, ?_, fun j hj => ?_, fun hn u hu => ?_,
    fun j hj => ?_⟩
  · rcases hmem u (hsub u hu) with rfl | ⟨hu', -⟩ | ⟨-, hS⟩
    · rw [hst₂]
      exact hw.starts c hc
    · exact hw.starts u hu'
    · exact hS
  · rcases hmem u (hsub u hu) with rfl | ⟨hu', hne'⟩ | ⟨hgt, -⟩
    · exact havoid hu
    · -- a vma before the cursor lies below the old frontier
      have hs' := hapart u hu' hne'
      refine hw.passed u hu' (Nat.lt_of_not_le fun hge => ?_)
      have := hmin u hu' hge
      omega
    · omega
  · obtain ⟨h, hh, hlt⟩ := hw.below
    have hhc : h.id ≠ c.id := fun hid => by
      have := hw.inv.eq_of_id_eq hh hc hid
      subst this
      omega
    exact ⟨h, hkeep₃ h (hkeep h hh hhc) hhc, by omega⟩
  · obtain ⟨n, hn, hnj, hcn, hnmin⟩ := hnext j hj
    have hnc : n.id ≠ c.id := fun hid => by
      have := h₂.eq_of_id_eq hn hc₂ (hid.trans hid₂.symm)
      subst this
      omega
    exact ⟨n, hkeep₃ n hn hnc, hnj, by omega, fun u hu hle => hnmin u (hsub u hu) (by omega)⟩
  · have := hnone hn u (hsub u hu)
    omega
  · obtain ⟨L, hL, hLj, hLs, haL⟩ := hw.last_some j hj
    have hLc : L.id ≠ c.id := fun h => hne (by rw [hj, ← hLj, h])
    have := hapart L hL hLc
    have := hmin L hL haL
    exact ⟨L, hkeep₃ L (hkeep L hL hLc) hLc, hLj, hLs, by omega⟩

/-- **One visit.**  From the sweep at a cursor other than the end of the equal range, the
visit finds the cursor's vma, splits it at both edges, erases it when the range contains it,
and leaves the sweep with the frontier past it. -/
theorem Sweep.evacuateBody {l : VmaList} {a i : ℕ} (hw : Sweep start stop S last l a (some i))
    (hne : some i ≠ last) (hs : start % pageSize = 0) (ht : stop % pageSize = 0)
    (hS : start ∈ S ∧ stop ∈ S) :
    ∃ c, l.find i = some c ∧ a ≤ c.start ∧ c.start ∈ S ∧
      ∃ l₃ cur₃ dead₁, Osv.Mmu.evacuateBody start stop l c = some (l₃, cur₃, dead₁) ∧
        Sweep start stop S last l₃ (c.start + 1) cur₃ ∧ Visited start stop l l₃ dead₁ := by
  obtain ⟨c, hc, rfl, hac, -⟩ := hw.cursor_some i rfl
  refine ⟨c, find_eq_of_mem hw.inv.distinct hc, hac, hw.starts c hc, ?_⟩
  -- what the two splits leave, before the pair is taken apart
  have h₂ := (hw.inv.splitAround c start stop).1
  have hL₂ := layout_splitAround hw.inv hw.layout hc hs ht
  have hc₂ : (l.splitAround c start stop).2 ∈ (l.splitAround c start stop).1.vmas :=
    splitAround_snd_mem hc
  have hid₂ : (l.splitAround c start stop).2.id = c.id := splitAround_snd_id
  have hst₂ : (l.splitAround c start stop).2.start = c.start := splitAround_snd_start
  have hmem : ∀ u ∈ (l.splitAround c start stop).1.vmas,
      u = (l.splitAround c start stop).2 ∨ (u ∈ l.vmas ∧ u.id ≠ c.id) ∨
        (c.start < u.start ∧ u.start ∈ S) := by
    intro u hu
    rcases mem_splitAround hw.inv hc hs ht hu with h | h | ⟨hlt, he | he⟩
    · exact .inl h
    · exact .inr (.inl h)
    · exact .inr (.inr ⟨hlt, he ▸ hS.1⟩)
    · exact .inr (.inr ⟨hlt, he ▸ hS.2⟩)
  have hkeep : ∀ u ∈ l.vmas, u.id ≠ c.id → u ∈ (l.splitAround c start stop).1.vmas :=
    fun u hu hne' => mem_splitAround_of_ne hu hne'
  have hmaps : ∀ x perm off, Maps (l.splitAround c start stop).1.vmas x perm off ↔
      Maps l.vmas x perm off :=
    fun _ _ _ => maps_splitAround hw.inv hw.layout hc hs ht
  have hca : contains start stop (l.splitAround c start stop).2 = true ∨
      (l.splitAround c start stop).2.Avoids start stop :=
    splitAround_snd_contains_or_avoids
  obtain ⟨h, hh, hha⟩ := hw.below
  have hh₂ : h ∈ (l.splitAround c start stop).1.vmas := hkeep h hh fun hid => by
    have := hw.inv.eq_of_id_eq hh hc hid
    subst this
    omega
  unfold Osv.Mmu.evacuateBody
  generalize l.splitAround c start stop = r at h₂ hL₂ hc₂ hid₂ hst₂ hmem hkeep hmaps hca hh₂
  obtain ⟨l₂, c₂⟩ := r
  dsimp only at h₂ hL₂ hc₂ hid₂ hst₂ hmem hkeep hmaps hca hh₂ ⊢
  have hc₂l := hL₂.aligned c₂ hc₂
  have hc₂o := hL₂.ordered c₂ hc₂
  by_cases hcon : contains start stop c₂ = true
  · -- the range contains the vma: it is not the head, and it is erased as dead
    rw [if_pos hcon, if_neg (head_id_ne h₂ hc₂ hh₂ (by omega))]
    have hone : ∀ u ∈ l₂.vmas, u.id = c₂.id → u = c₂ := fun u hu hid => h₂.eq_of_id_eq hu hc₂ hid
    have hin : ∀ x, c₂.Holds x → start ≤ x ∧ x < stop := by
      intro x hx
      unfold contains at hcon
      simp only [Bool.and_eq_true, decide_eq_true_eq] at hcon
      unfold Vma.Holds at hx
      omega
    refine ⟨_, _, _, rfl, ?_, ⟨fun x perm off hx => ?_, fun x perm off _ _ => ?_, ?_⟩⟩
    · refine hw.advance hc hne h₂ hc₂ hid₂ hst₂ hmem hkeep (h₂.erase c₂.id).1
        (hL₂.mono fun u hu => List.mem_of_mem_filter hu) (fun u hu => List.mem_of_mem_filter hu)
        (fun u hu hne' => List.mem_filter.2 ⟨hu, by simpa [hid₂] using hne'⟩) fun hmem' => ?_
      exact absurd (List.mem_filter.1 hmem').2 (by simp)
    · rw [← hmaps, maps_erase hc₂ hone (x := x)]
      refine ⟨.inl, fun h => h.resolve_right ?_⟩
      rintro ⟨u, hu, hxu, -⟩
      rw [List.mem_singleton.1 hu] at hxu
      have := hin x hxu
      omega
    · exact (maps_erase hc₂ hone).symm.trans (hmaps x perm off)
    · intro d hd
      rw [List.mem_singleton.1 hd]
      exact ⟨hcon, hc₂o, hc₂l⟩
  · -- the vma holds nothing of the range; the loop passes over it
    rw [if_neg hcon]
    refine ⟨_, _, _, rfl, ?_, ⟨fun x perm off _ => hmaps x perm off, fun x perm off _ _ => ?_,
      by simp⟩⟩
    · exact hw.advance hc hne h₂ hc₂ hid₂ hst₂ hmem hkeep h₂ hL₂ (fun _ hu => hu)
        (fun u hu _ => hu) fun _ => hca.resolve_left hcon
    · rw [or_iff_left not_maps_nil]
      exact hmaps x perm off

/-- **The loop.**  From a sweep whose frontier leaves fewer starts of `S` above it than there
is fuel, the loop reaches the end of its equal range and leaves the range evacuated.  The
induction is on the fuel, one visit a step; each visit moves the frontier past a start of
`S`. -/
theorem rangeLoop_evacuate (hs : start % pageSize = 0) (ht : stop % pageSize = 0)
    (hS : start ∈ S ∧ stop ∈ S) :
    ∀ fuel l a cur, Sweep start stop S last l a cur → (S.filter (a ≤ ·)).length < fuel →
      ∃ l' dead, rangeLoop (Osv.Mmu.evacuateBody start stop) last fuel l cur = some (l', dead) ∧
        Evacuated start stop l l' dead := by
  intro fuel
  induction fuel with
  | zero =>
      intro l a cur _ h
      exact absurd h (Nat.not_lt_zero _)
  | succ fuel ih =>
      intro l a cur hw hμ
      by_cases hcl : cur = last
      · refine ⟨l, [], ?_, hw.evacuated_of_last hcl⟩
        simp [rangeLoop, hcl]
      · cases cur with
        | none =>
            -- the end of the equal range lies from the frontier on, so the cursor is a vma
            obtain ⟨j, hj⟩ := Option.ne_none_iff_exists'.1 (Ne.symm hcl)
            obtain ⟨L, hL, -, -, haL⟩ := hw.last_some j hj
            exact absurd (hw.cursor_none rfl L hL) (by omega)
        | some i =>
            obtain ⟨c, hfind, hac, hcS, l₃, cur₃, dead₁, hbody, hw₃, hvis⟩ :=
              hw.evacuateBody hcl hs ht hS
            have hfewer := length_filter_lt hcS hac
            obtain ⟨l', dead₂, hrest, hev⟩ := ih l₃ (c.start + 1) cur₃ hw₃ (by omega)
            refine ⟨l', dead₁ ++ dead₂, ?_, hvis.evacuated hev⟩
            simp only [rangeLoop, if_neg hcl, hfind, hbody, hrest, Option.map_some]

/-- evacuate starts its loop in a sweep: at the first vma that ends after the range's start,
whose start is the frontier, or at end() past every vma. -/
theorem sweep_init {l : VmaList} (hl : Inv l) (hw : WellFormed l.vmas) (hlt : start < stop) :
    ∃ a, Sweep start stop (l.vmas.map Vma.start ++ [start, stop]) (upperBound l.vmas stop) l a
      (lowerBound l.vmas start) := by
  have hL := hw.layout
  have hstarts : ∀ v ∈ l.vmas, v.start ∈ l.vmas.map Vma.start ++ [start, stop] :=
    fun v hv => List.mem_append_left _ (List.mem_map_of_mem hv)
  obtain ⟨rest, hrest⟩ := List.head?_eq_some_iff.1 hw.bracketed.1
  have hbot : bottomMarker ∈ l.vmas := hrest ▸ List.mem_cons_self
  have hb0 : bottomMarker.start = 0 ∧ bottomMarker.stop = 0 := by decide
  unfold lowerBound
  cases hf : l.vmas.find? (fun x => ¬ x.stop ≤ start) with
  | none =>
      -- every vma ends by the range's start: the loop is at end(), and so is its end
      have hend : ∀ v ∈ l.vmas, v.stop ≤ start := fun v hv => by
        simpa using List.find?_eq_none.1 hf v hv
      refine ⟨start + 1, hl, hL, hstarts, fun v hv _ => Vma.avoids_of_le (.inl (hend v hv)),
        ⟨bottomMarker, hbot, by omega⟩, fun i hi => (by cases hi), fun _ u hu => ?_, fun j hj => ?_⟩
      · have := hend u hu
        have := hL.ordered u hu
        omega
      · obtain ⟨q, hq, -, hqs⟩ := upperBound_spec hj
        have := hend q hq
        have := hL.ordered q hq
        omega
  | some c =>
      have hc := List.mem_of_find?_eq_some hf
      have hcs : ¬ c.stop ≤ start := by simpa using List.find?_some hf
      have hbefore : ∀ v ∈ l.vmas, v.start < c.start → v.stop ≤ start := fun v hv hlt' => by
        simpa using find?_first hl.sorted hf hv hlt'
      refine ⟨c.start, hl, hL, hstarts, fun v hv hlt' => Vma.avoids_of_le (.inl (hbefore v hv hlt')),
        ⟨bottomMarker, hbot, ?_⟩, fun i hi => ?_, fun hi => (by cases hi), fun j hj => ?_⟩
      · -- the cursor ends after the range's start, so it is not the bottom marker, the head
        have hcb : c ≠ bottomMarker := by
          rintro rfl
          omega
        rw [hrest] at hc
        rcases List.mem_cons.1 hc with h | hc
        · exact absurd h hcb
        · exact (List.pairwise_cons.1 (hrest ▸ hl.sorted)).1 c hc
      · cases hi
        exact ⟨c, hc, rfl, Nat.le_refl _, fun u _ h => h⟩
      · obtain ⟨q, hq, hqj, hqs⟩ := upperBound_spec hj
        refine ⟨q, hq, hqj, hqs, Nat.le_of_not_lt fun hlt' => ?_⟩
        have := hbefore q hq hlt'
        have := hL.ordered q hq
        omega

/-- **evacuate removes its range.**  On a list that keeps the representation invariant and
the identity invariant, evacuate(start, end) of a page-aligned non-empty range, with fuel for
every vma and three visits more, ends; it leaves no vma holding an address of the range,
maps every address outside the range as before, with the same permission and file offset,
and hands back dead vmas in the range that map every address of it as the list did. -/
theorem evacuate_removes_range {l : VmaList} {fuel : ℕ} (hl : Inv l) (hw : WellFormed l.vmas)
    (hs : start % pageSize = 0) (ht : stop % pageSize = 0) (hlt : start < stop)
    (hfuel : l.vmas.length + 3 ≤ fuel) :
    ∃ l' dead, evacuate fuel start stop l = some (l', dead) ∧ Evacuated start stop l l' dead := by
  obtain ⟨a, hsw⟩ := sweep_init hl hw hlt
  have hμ := List.length_filter_le (a ≤ ·) (l.vmas.map Vma.start ++ [start, stop])
  simp only [List.length_append, List.length_map, List.length_cons, List.length_nil] at hμ
  exact rangeLoop_evacuate hs ht ⟨by simp, by simp⟩ fuel l a _ hsw (by omega)

end Sweep


end Osv.Mmu
