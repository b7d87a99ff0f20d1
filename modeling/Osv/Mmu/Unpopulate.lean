import Osv.Mmu.AddressSpace
import Osv.Mmu.Evacuate

/-!
# unmap empties the page tables of its range

**The model.**  The processor's walk for an address goes from page_table_root down each
entry that is neither empty nor large (`PageTables.Reaches`); `PageTables.lookup` is the
entry it ends at.  The tables that walks get to form a tree (`PageTables.TreeInv`): a table
is got to at one level, through one entry, so two walks that meet at a table agree on the
indices above it, and it is a page the allocator has handed out.

**What holds.**  unpopulate of a unit, small or huge, keeps the tree, maps nothing that was
not mapped, and leaves every address of the unit unmapped (`unpopulate_walk`): a split large
page hangs a fresh table under the entry it replaces (`splitLargePage_reaches`), and the
other steps only empty entries (`Shrinks`).  The units of a page-aligned range are the
range's pages (`operateUnits_cover`), so unpopulate empties each dead vma
(`unpopulateAll_clears`).  With evacuate (`evacuate_removes_range`), unmap of a page-aligned
range on an address space whose page tables map only addresses its vmas hold leaves no
mapping in the range, in the vmas or the page tables, and keeps that invariant
(`unmap_removes_range`).
-/

namespace Osv.Mmu

namespace PageTables

/-! ## The walk -/

/-- The processor's walk for `virt` gets to the table `table` at `level`: page_table_root at
level 3, then down each entry that is neither empty nor large. -/
inductive Reaches (pt : PageTables) (virt : ℕ) : ℕ → ℕ → Prop
  | root : Reaches pt virt 3 rootTable
  | down {level table : ℕ} {pte : Pte} : Reaches pt virt (level + 1) table →
      pt.entry table (ptIndex virt (level + 1)) = some pte → pte.large = false →
      Reaches pt virt level pte.addr

/-- Two addresses have the same index at `level` and at every level above it. -/
def Agree (x y level : ℕ) : Prop := ∀ k, level ≤ k → k ≤ 3 → ptIndex x k = ptIndex y k

/-- The tables the walks get to form a tree under page_table_root: a table is got to at one
level, and two walks that get to it agree above it; it is a page the allocator has handed
out. -/
structure TreeInv (pt : PageTables) : Prop where
  tree : ∀ x y l l' t, pt.Reaches x l t → pt.Reaches y l' t → l = l' ∧ Agree x y (l + 1)
  fresh : ∀ x l t, pt.Reaches x l t → t < pt.nextFree

variable {pt pt' : PageTables} {x y : ℕ}

theorem Reaches.le_three {l t : ℕ} (h : pt.Reaches x l t) : l ≤ 3 := by
  induction h with
  | root => exact Nat.le_refl 3
  | down _ _ _ ih => omega

/-- The walk from the root is the walk from any table it gets to. -/
theorem lookup_of_reaches {l t : ℕ} (h : pt.Reaches x l t) : pt.lookup x = pt.lookupFrom x l t := by
  induction h with
  | root => rfl
  | down _ he hl ih => rw [ih, lookupFrom, he]; simp [hl]

theorem Agree.mono {l l' : ℕ} (h : Agree x y l) (hl : l ≤ l') : Agree x y l' :=
  fun k hk hk3 => h k (Nat.le_trans hl hk) hk3

theorem Agree.symm {l : ℕ} (h : Agree x y l) : Agree y x l := fun k hk hk3 => (h k hk hk3).symm

theorem Agree.trans {z l : ℕ} (h₁ : Agree x y l) (h₂ : Agree y z l) : Agree x z l :=
  fun k hk hk3 => (h₁ k hk hk3).trans (h₂ k hk hk3)

theorem Agree.down {l : ℕ} (h : Agree x y (l + 1)) (hi : ptIndex x l = ptIndex y l) :
    Agree x y l := by
  intro k hk hk3
  rcases Nat.eq_or_lt_of_le hk with rfl | hlt
  · exact hi
  · exact h k hlt hk3

/-- Addresses in one block of `2 ^ (12 + 9 level)` bytes agree from `level` up. -/
theorem agree_of_div {l : ℕ} (h : x / 2 ^ (12 + l * 9) = y / 2 ^ (12 + l * 9)) : Agree x y l := by
  intro k hk _
  have hpow : 2 ^ (12 + k * 9) = 2 ^ (12 + l * 9) * 2 ^ ((k - l) * 9) := by
    rw [← Nat.pow_add]
    congr 1
    rw [Nat.sub_mul]
    have : l * 9 ≤ k * 9 := Nat.mul_le_mul_right 9 hk
    omega
  unfold ptIndex
  rw [hpow, ← Nat.div_div_eq_div_mul, ← Nat.div_div_eq_div_mul, h]

theorem agree_of_page (h : x / pageSize = y / pageSize) : Agree x y 0 := agree_of_div h

theorem agree_of_hugePage (h : x / hugePageSize = y / hugePageSize) : Agree x y 1 := agree_of_div h

/-- Below `2 ^ 48`, where the walk reads every bit of an address, addresses that agree from level
`1` up lie in one huge page. -/
theorem div_hugePage_of_agree (hx : x < 2 ^ 48) (hy : y < 2 ^ 48) (h : Agree x y 1) :
    x / hugePageSize = y / hugePageSize := by
  have h₁ := h 1 le_rfl (by decide)
  have h₂ := h 2 (by decide) (by decide)
  have h₃ := h 3 (by decide) le_rfl
  simp only [ptIndex, hugePageSize] at h₁ h₂ h₃ ⊢
  norm_num at h₁ h₂ h₃ hx hy ⊢
  omega

/-- The walk reads only the index of its address at each level above: an address that
agrees with it there gets to the same table. -/
theorem Reaches.of_agree {l t : ℕ} (h : pt.Reaches x l t) (ha : Agree x y (l + 1)) :
    pt.Reaches y l t := by
  induction h with
  | root => exact .root
  | @down l t pte hR he hl ih =>
      have hidx := ha (l + 1) (Nat.le_refl _) hR.le_three
      exact .down (ih (ha.mono (Nat.le_succ _))) (hidx ▸ he) hl

/-- **The walk's frame.**  Page tables that have the entries the walk for `x` reads map `x`
alike. -/
theorem lookupFrom_frame (hsame : ∀ l t, pt.Reaches x l t →
      pt'.entry t (ptIndex x l) = pt.entry t (ptIndex x l)) :
    ∀ l t, pt.Reaches x l t → pt'.lookupFrom x l t = pt.lookupFrom x l t := by
  intro l
  induction l with
  | zero => intro t hR; exact hsame 0 t hR
  | succ l ih =>
      intro t hR
      simp only [lookupFrom, hsame (l + 1) t hR]
      cases he : pt.entry t (ptIndex x (l + 1)) with
      | none => rfl
      | some pte =>
          dsimp only
          cases hl : pte.large with
          | true => rfl
          | false => exact ih pte.addr (.down hR he hl)

theorem lookup_frame (hsame : ∀ l t, pt.Reaches x l t →
      pt'.entry t (ptIndex x l) = pt.entry t (ptIndex x l)) : pt'.lookup x = pt.lookup x :=
  lookupFrom_frame hsame 3 rootTable .root

/-- A walk whose entries above `level` are kept gets to the same table. -/
theorem Reaches.transfer {l t : ℕ} (h : pt.Reaches x l t) :
    (∀ l' t', l < l' → pt.Reaches x l' t' → pt'.entry t' (ptIndex x l') = pt.entry t' (ptIndex x l')) →
      pt'.Reaches x l t := by
  induction h with
  | root => exact fun _ => .root
  | @down l t pte hR he hl ih =>
      intro hsame
      refine .down (ih fun l' t' hlt hR' => hsame l' t' (by omega) hR') ?_ hl
      rw [hsame (l + 1) t (Nat.lt_succ_self l) hR, he]

/-- A table the walks get to is at one level. -/
theorem TreeInv.level_eq (hT : pt.TreeInv) {x y l l' t : ℕ} (h₁ : pt.Reaches x l t)
    (h₂ : pt.Reaches y l' t) : l = l' :=
  (hT.tree x y l l' t h₁ h₂).1

/-! ## Emptying entries -/

/-- Every entry of `pt'` is one of `pt`: the tables lost entries and gained none. -/
def Shrinks (pt pt' : PageTables) : Prop := ∀ t i e, pt'.entry t i = some e → pt.entry t i = some e

theorem Shrinks.refl (pt : PageTables) : Shrinks pt pt := fun _ _ _ h => h

theorem Shrinks.trans {pt₁ pt₂ pt₃ : PageTables} (h₁ : Shrinks pt₁ pt₂) (h₂ : Shrinks pt₂ pt₃) :
    Shrinks pt₁ pt₃ := fun t i e h => h₁ t i e (h₂ t i e h)

theorem Shrinks.reaches (hs : Shrinks pt pt') {l t : ℕ} (h : pt'.Reaches x l t) :
    pt.Reaches x l t := by
  induction h with
  | root => exact .root
  | down _ he hl ih => exact .down ih (hs _ _ _ he) hl

theorem Shrinks.lookupFrom (hs : Shrinks pt pt') {e : Pte} :
    ∀ l t, pt'.lookupFrom x l t = some e → pt.lookupFrom x l t = some e := by
  intro l
  induction l with
  | zero => intro t h; exact hs _ _ _ h
  | succ l ih =>
      intro t h
      simp only [PageTables.lookupFrom] at h ⊢
      cases he : pt'.entry t (ptIndex x (l + 1)) with
      | none => rw [he] at h; cases h
      | some pte =>
          rw [he] at h
          rw [hs _ _ _ he]
          dsimp only at h ⊢
          split_ifs at h ⊢
          · exact h
          · exact ih pte.addr h

theorem Shrinks.lookup (hs : Shrinks pt pt') {e : Pte} (h : pt'.lookup x = some e) :
    pt.lookup x = some e :=
  hs.lookupFrom 3 rootTable h

/-- Emptying entries keeps the tree. -/
theorem TreeInv.shrink (hT : pt.TreeInv) (hs : Shrinks pt pt') (hn : pt.nextFree ≤ pt'.nextFree) :
    pt'.TreeInv where
  tree x y l l' t h₁ h₂ := hT.tree x y l l' t (hs.reaches h₁) (hs.reaches h₂)
  fresh x l t h := Nat.lt_of_lt_of_le (hT.fresh x l t (hs.reaches h)) hn

theorem Shrinks.write_none {pt₀ : PageTables} (hs : Shrinks pt pt₀) (p : Ptep) :
    Shrinks pt (pt₀.write p none) := by
  intro t i e h
  simp only [write] at h
  split_ifs at h
  exact hs t i e h

theorem Shrinks.writeTable {pt₀ : PageTables} {page : ℕ} {f : ℕ → Option Pte}
    (hs : Shrinks pt pt₀) (hf : ∀ j e, f j = some e → pt.entry page j = some e) :
    Shrinks pt (pt₀.writeTable page f) := by
  intro t i e h
  simp only [PageTables.writeTable] at h
  split_ifs at h with ht
  · subst ht
    exact hf i e h
  · exact hs t i e h

/-- A table the walks get to below another is a different table. -/
theorem TreeInv.ne_of_lt (hT : pt.TreeInv) {z k u l t : ℕ} (hu : pt.Reaches z k u)
    (ht : pt.Reaches y l t) (hlt : k < l) : t ≠ u := by
  rintro rfl
  exact absurd (hT.level_eq hu ht) (Nat.ne_of_lt hlt)

/-- The walk gets to `t` at `level` and the tables it passes above are kept: an emptied
slot of `t` at its index leaves it unmapped. -/
theorem lookup_none_of_slot {l t : ℕ} (hR : pt.Reaches y l t)
    (habove : ∀ l' t', l < l' → pt.Reaches y l' t' →
      pt'.entry t' (ptIndex y l') = pt.entry t' (ptIndex y l'))
    (hslot : pt'.entry t (ptIndex y l) = none) : pt'.lookup y = none := by
  rw [lookup_of_reaches (hR.transfer habove)]
  cases l <;> simp [lookupFrom, hslot]

/-! ## A split large page -/

section Split

variable {p : Ptep} {orig : Pte} {level : ℕ}

theorem splitLargePage_nextFree :
    (pt.splitLargePage p orig level).1.nextFree = pt.nextFree + pageSize := rfl

/-- The entry split_large_page writes points to the new table. -/
theorem splitLargePage_entry_slot (hp : p.1 ≠ pt.nextFree) :
    (pt.splitLargePage p orig level).1.entry p.1 p.2 = some (makePte pt.nextFree false permRwx) := by
  simp [splitLargePage, allocateIntermediateLevel, allocPage, writeTable, write, hp]

/-- The new table holds the pieces, large where the split entry was above level 1. -/
theorem splitLargePage_entry_table {j : ℕ} (hj : j < 512) :
    ((pt.splitLargePage p orig level).1.entry pt.nextFree j).map Pte.large =
      some (decide (1 < level) && orig.large) := by
  simp only [splitLargePage, allocateIntermediateLevel, allocPage, writeTable, write]
  by_cases h : level = 1 <;> simp [h, hj]

theorem splitLargePage_entry_other {u j : ℕ} (hu : u ≠ pt.nextFree) (huj : ¬ (u = p.1 ∧ j = p.2)) :
    (pt.splitLargePage p orig level).1.entry u j = pt.entry u j := by
  simp [splitLargePage, allocateIntermediateLevel, allocPage, writeTable, write, hu, huj]

end Split

section SplitWalk

variable {a l t : ℕ} {pte : Pte}

/-- **What the walks get to after a split**: what they got to before, or the new table, got
to through the entry that was split. -/
theorem splitLargePage_reaches (hT : pt.TreeInv) (hR : pt.Reaches a (l + 1) t)
    (hl : pte.large = true) {k u : ℕ}
    (h : (pt.splitLargePage (t, ptIndex a (l + 1)) pte (l + 1)).1.Reaches y k u) :
    pt.Reaches y k u ∨
      (k = l ∧ u = pt.nextFree ∧ pt.Reaches y (l + 1) t ∧ ptIndex y (l + 1) = ptIndex a (l + 1)) := by
  have htT : t ≠ pt.nextFree := Nat.ne_of_lt (hT.fresh _ _ _ hR)
  induction h with
  | root => exact .inl .root
  | @down k u₀ q hR₁ he₁ hq ih =>
      rcases ih with hRo | ⟨rfl, rfl, -, -⟩
      · have hu₀ : u₀ ≠ pt.nextFree := Nat.ne_of_lt (hT.fresh _ _ _ hRo)
        by_cases hs : u₀ = t ∧ ptIndex y (k + 1) = ptIndex a (l + 1)
        · -- the split entry now points to the new table
          obtain ⟨rfl, hidx⟩ := hs
          have hk : k = l := by
            have := hT.level_eq hRo hR
            omega
          subst hk
          rw [hidx, splitLargePage_entry_slot htT] at he₁
          cases he₁
          exact .inr ⟨rfl, rfl, hRo, hidx⟩
        · rw [splitLargePage_entry_other hu₀ hs] at he₁
          exact .inl (.down hRo he₁ hq)
      · -- the pieces of a large entry above level 1 are large: no walk goes below them
        have hmap : ((pt.splitLargePage (t, ptIndex a (k + 1 + 1)) pte (k + 1 + 1)).1.entry
            pt.nextFree (ptIndex y (k + 1))).map Pte.large =
              some (decide (1 < k + 1 + 1) && pte.large) :=
          splitLargePage_entry_table (Nat.mod_lt _ (by decide))
        rw [he₁] at hmap
        simp [hl, hq] at hmap

theorem splitLargePage_treeInv (hT : pt.TreeInv) (hR : pt.Reaches a (l + 1) t)
    (hl : pte.large = true) : (pt.splitLargePage (t, ptIndex a (l + 1)) pte (l + 1)).1.TreeInv where
  tree y y' k k' u h₁ h₂ := by
    rcases splitLargePage_reaches hT hR hl h₁ with h₁ | ⟨rfl, rfl, hRt₁, hi₁⟩ <;>
      rcases splitLargePage_reaches hT hR hl h₂ with h₂ | ⟨hk₂, hu₂, hRt₂, hi₂⟩
    · exact hT.tree _ _ _ _ _ h₁ h₂
    · exact absurd (hT.fresh _ _ _ h₁) (by rw [hu₂]; exact Nat.lt_irrefl _)
    · exact absurd (hT.fresh _ _ _ h₂) (Nat.lt_irrefl _)
    · -- both walks came through the split entry
      obtain ⟨-, hag⟩ := hT.tree _ _ _ _ _ hRt₁ hRt₂
      exact ⟨hk₂.symm, hag.down (hi₁.trans hi₂.symm)⟩
  fresh y k u h := by
    rw [splitLargePage_nextFree]
    rcases splitLargePage_reaches hT hR hl h with h | ⟨-, rfl, -, -⟩
    · have := hT.fresh _ _ _ h
      omega
    · unfold pageSize
      omega

/-- The walk for the address the split was for goes on into the new table. -/
theorem splitLargePage_reaches_new (hT : pt.TreeInv) (hR : pt.Reaches a (l + 1) t) :
    (pt.splitLargePage (t, ptIndex a (l + 1)) pte (l + 1)).1.Reaches a l pt.nextFree := by
  have htT : t ≠ pt.nextFree := Nat.ne_of_lt (hT.fresh _ _ _ hR)
  have hRa : (pt.splitLargePage (t, ptIndex a (l + 1)) pte (l + 1)).1.Reaches a (l + 1) t :=
    hR.transfer fun l' t' hlt hR' =>
      splitLargePage_entry_other (Nat.ne_of_lt (hT.fresh _ _ _ hR'))
        fun h => hT.ne_of_lt hR hR' hlt h.1
  exact .down hRa (splitLargePage_entry_slot htT) rfl

/-- A split maps what was mapped: an address it maps was mapped, by the large entry when its
walk goes through the split entry. -/
theorem splitLargePage_lookup (hT : pt.TreeInv) (hR : pt.Reaches a (l + 1) t)
    (he : pt.entry t (ptIndex a (l + 1)) = some pte) (hl : pte.large = true) {e : Pte}
    (h : (pt.splitLargePage (t, ptIndex a (l + 1)) pte (l + 1)).1.lookup y = some e) :
    (pt.lookup y).isSome := by
  by_cases hthrough : pt.Reaches y (l + 1) t ∧ ptIndex y (l + 1) = ptIndex a (l + 1)
  · rw [lookup_of_reaches hthrough.1]
    simp [lookupFrom, hthrough.2, he, hl]
  · have hsame : (pt.splitLargePage (t, ptIndex a (l + 1)) pte (l + 1)).1.lookup y = pt.lookup y := by
      refine lookup_frame fun k u hRk => ?_
      refine splitLargePage_entry_other (Nat.ne_of_lt (hT.fresh _ _ _ hRk)) fun hs => hthrough ?_
      obtain ⟨rfl, hidx⟩ := hs
      have hk := hT.level_eq hRk hR
      subst hk
      exact ⟨hRk, hidx⟩
    rw [← hsame, h]
    rfl

end SplitWalk

section Hang

variable {p : Ptep} {a l t : ℕ}

theorem allocateIntermediateLevel_nextFree :
    (pt.allocateIntermediateLevel p).1.nextFree = pt.nextFree + pageSize := rfl

/-- The entry allocate_intermediate_level writes points to the new table. -/
theorem allocateIntermediateLevel_entry_slot :
    (pt.allocateIntermediateLevel p).1.entry p.1 p.2 = some (makePte pt.nextFree false permRwx) := by
  simp [allocateIntermediateLevel, allocPage, writeTable, write]

/-- The new table's entries are empty. -/
theorem allocateIntermediateLevel_entry_table {j : ℕ} (hp : p.1 ≠ pt.nextFree) :
    (pt.allocateIntermediateLevel p).1.entry pt.nextFree j = none := by
  simp [allocateIntermediateLevel, allocPage, writeTable, write, Ne.symm hp]

theorem allocateIntermediateLevel_entry_other {u j : ℕ} (hu : u ≠ pt.nextFree)
    (huj : ¬ (u = p.1 ∧ j = p.2)) : (pt.allocateIntermediateLevel p).1.entry u j = pt.entry u j := by
  simp [allocateIntermediateLevel, allocPage, writeTable, write, hu, huj]

/-- **What the walks get to after a table is hung** at a slot of a table a walk gets to: what
they got to before, or the new table, through that slot. -/
theorem allocateIntermediateLevel_reaches (hT : pt.TreeInv) (hR : pt.Reaches a (l + 1) t) {k u : ℕ}
    (h : (pt.allocateIntermediateLevel (t, ptIndex a (l + 1))).1.Reaches y k u) :
    pt.Reaches y k u ∨
      (k = l ∧ u = pt.nextFree ∧ pt.Reaches y (l + 1) t ∧ ptIndex y (l + 1) = ptIndex a (l + 1)) := by
  have htT : t ≠ pt.nextFree := Nat.ne_of_lt (hT.fresh _ _ _ hR)
  induction h with
  | root => exact .inl .root
  | @down k u₀ q hR₁ he₁ hq ih =>
      rcases ih with hRo | ⟨rfl, rfl, -, -⟩
      · have hu₀ : u₀ ≠ pt.nextFree := Nat.ne_of_lt (hT.fresh _ _ _ hRo)
        by_cases hs : u₀ = t ∧ ptIndex y (k + 1) = ptIndex a (l + 1)
        · -- the slot now points to the new table
          obtain ⟨rfl, hidx⟩ := hs
          have hk : k = l := by
            have := hT.level_eq hRo hR
            omega
          subst hk
          rw [hidx, allocateIntermediateLevel_entry_slot] at he₁
          cases he₁
          exact .inr ⟨rfl, rfl, hRo, hidx⟩
        · rw [allocateIntermediateLevel_entry_other hu₀ hs] at he₁
          exact .inl (.down hRo he₁ hq)
      · -- the new table is empty: no walk goes below it
        rw [allocateIntermediateLevel_entry_table htT] at he₁
        cases he₁

theorem allocateIntermediateLevel_treeInv (hT : pt.TreeInv) (hR : pt.Reaches a (l + 1) t) :
    (pt.allocateIntermediateLevel (t, ptIndex a (l + 1))).1.TreeInv where
  tree y y' k k' u h₁ h₂ := by
    rcases allocateIntermediateLevel_reaches hT hR h₁ with h₁ | ⟨rfl, rfl, hRt₁, hi₁⟩ <;>
      rcases allocateIntermediateLevel_reaches hT hR h₂ with h₂ | ⟨hk₂, hu₂, hRt₂, hi₂⟩
    · exact hT.tree _ _ _ _ _ h₁ h₂
    · exact absurd (hT.fresh _ _ _ h₁) (by rw [hu₂]; exact Nat.lt_irrefl _)
    · exact absurd (hT.fresh _ _ _ h₂) (Nat.lt_irrefl _)
    · obtain ⟨-, hag⟩ := hT.tree _ _ _ _ _ hRt₁ hRt₂
      exact ⟨hk₂.symm, hag.down (hi₁.trans hi₂.symm)⟩
  fresh y k u h := by
    rw [allocateIntermediateLevel_nextFree]
    rcases allocateIntermediateLevel_reaches hT hR h with h | ⟨-, rfl, -, -⟩
    · have := hT.fresh _ _ _ h
      omega
    · unfold pageSize
      omega

/-- The walk for the address the table was hung for goes on into it. -/
theorem allocateIntermediateLevel_reaches_new (hT : pt.TreeInv) (hR : pt.Reaches a (l + 1) t) :
    (pt.allocateIntermediateLevel (t, ptIndex a (l + 1))).1.Reaches a l pt.nextFree := by
  have htT : t ≠ pt.nextFree := Nat.ne_of_lt (hT.fresh _ _ _ hR)
  have hRa : (pt.allocateIntermediateLevel (t, ptIndex a (l + 1))).1.Reaches a (l + 1) t :=
    hR.transfer fun l' t' hlt hR' =>
      allocateIntermediateLevel_entry_other (Nat.ne_of_lt (hT.fresh _ _ _ hR'))
        fun h => hT.ne_of_lt hR hR' hlt h.1
  exact .down hRa (allocateIntermediateLevel_entry_slot) rfl

/-- A walk after a large entry is written was a walk before: no walk goes through a large
entry. -/
theorem reaches_of_write_large {e : Pte} (hl : e.large = true) {k u : ℕ}
    (h : (pt.write p (some e)).Reaches y k u) : pt.Reaches y k u := by
  induction h with
  | root => exact .root
  | @down k u₀ q _ he₁ hq ih =>
      simp only [write] at he₁
      split_ifs at he₁
      · cases he₁
        simp [hl] at hq
      · exact .down ih he₁ hq

/-- Writing a large entry keeps the tree. -/
theorem TreeInv.write_large (hT : pt.TreeInv) {e : Pte} (hl : e.large = true) :
    (pt.write p (some e)).TreeInv where
  tree _ _ _ _ _ h₁ h₂ := hT.tree _ _ _ _ _ (reaches_of_write_large hl h₁) (reaches_of_write_large hl h₂)
  fresh _ _ _ h := hT.fresh _ _ _ (reaches_of_write_large hl h)

end Hang

/-- The entry a walk ends at is large, or at level `0`, in a table the walk gets to. -/
theorem reaches_of_lookupFrom {e : Pte} :
    ∀ {l t : ℕ}, pt.Reaches x l t → pt.lookupFrom x l t = some e →
      ∃ k u, pt.Reaches x k u ∧ pt.entry u (ptIndex x k) = some e ∧ (e.large = true ∨ k = 0)
  | 0, t, hR, h => ⟨0, t, hR, h, .inr rfl⟩
  | l + 1, t, hR, h => by
      simp only [lookupFrom] at h
      cases he : pt.entry t (ptIndex x (l + 1)) with
      | none => rw [he] at h; cases h
      | some pte =>
          rw [he] at h
          dsimp only at h
          split_ifs at h with hl
          · cases h
            exact ⟨l + 1, t, hR, he, .inl hl⟩
          · exact reaches_of_lookupFrom (.down hR he (by simpa using hl)) h

theorem reaches_of_lookup {e : Pte} (h : pt.lookup x = some e) :
    ∃ k u, pt.Reaches x k u ∧ pt.entry u (ptIndex x k) = some e ∧ (e.large = true ∨ k = 0) :=
  reaches_of_lookupFrom .root h

end PageTables

/-! ## unpopulate -/

open PageTables

section Unpopulate

variable {pt : PageTables} {a t : ℕ}

/-- unpopulate's small_page empties the level-0 entry of its page, if it holds one. -/
theorem unpopulate_smallPage (hT : pt.TreeInv) (hR : pt.Reaches a 0 t) (off : ℕ) :
    ∃ pt', unpopulate.smallPage () pt (t, ptIndex a 0) off = some ((), pt') ∧ Shrinks pt pt' ∧
      pt'.nextFree = pt.nextFree ∧ ∀ y, Agree a y 0 → pt'.lookup y = none := by
  have hslot : ∀ y, Agree a y 0 → pt.Reaches y 0 t ∧ ptIndex y 0 = ptIndex a 0 :=
    fun y hy => ⟨hR.of_agree (hy.mono (Nat.le_succ 0)), (hy 0 (Nat.le_refl 0) (by decide)).symm⟩
  cases hr : pt.read (t, ptIndex a 0) with
  | none =>
      refine ⟨pt, by simp [unpopulate, hr], Shrinks.refl pt, rfl, fun y hy => ?_⟩
      obtain ⟨hRy, hidx⟩ := hslot y hy
      exact lookup_none_of_slot hRy (fun _ _ _ _ => rfl) (by rw [hidx]; exact hr)
  | some pte =>
      refine ⟨(pt.write (t, ptIndex a 0) none).freePage pte.addr, by simp [unpopulate, hr],
        (Shrinks.refl pt).write_none _, rfl, fun y hy => ?_⟩
      obtain ⟨hRy, hidx⟩ := hslot y hy
      refine lookup_none_of_slot hRy (fun l' t' hlt hR' => ?_) ?_
      · have := hT.ne_of_lt hR hR' hlt
        simp [write, freePage, this]
      · simp [write, freePage, hidx]

/-- unpopulate's huge_page empties the level-1 entry of its 2MB page, whether it maps the
page whole or points to a table of small pages, which it empties as well. -/
theorem unpopulate_hugePage (hT : pt.TreeInv) (hR : pt.Reaches a 1 t) (off : ℕ) :
    ∃ pt', unpopulate.hugePage () pt (t, ptIndex a 1) off = some ((), pt') ∧ Shrinks pt pt' ∧
      pt'.nextFree = pt.nextFree ∧ ∀ y, Agree a y 1 → pt'.lookup y = none := by
  have hslot : ∀ y, Agree a y 1 → pt.Reaches y 1 t ∧ ptIndex y 1 = ptIndex a 1 :=
    fun y hy => ⟨hR.of_agree (hy.mono (Nat.le_succ 1)), (hy 1 (Nat.le_refl 1) (by decide)).symm⟩
  cases hr : pt.read (t, ptIndex a 1) with
  | none =>
      refine ⟨pt.write (t, ptIndex a 1) none, by simp [unpopulate, hr],
        (Shrinks.refl pt).write_none _, rfl, fun y hy => ?_⟩
      obtain ⟨hRy, hidx⟩ := hslot y hy
      refine lookup_none_of_slot hRy (fun l' t' hlt hR' => ?_) ?_
      · have := hT.ne_of_lt hR hR' hlt
        simp [write, this]
      · simp [write, hidx]
  | some pte =>
      by_cases hl : pte.large = true
      · refine ⟨(pt.write (t, ptIndex a 1) none).freePage pte.addr, by simp [unpopulate, hr, hl],
          (Shrinks.refl pt).write_none _, rfl, fun y hy => ?_⟩
        obtain ⟨hRy, hidx⟩ := hslot y hy
        refine lookup_none_of_slot hRy (fun l' t' hlt hR' => ?_) ?_
        · have := hT.ne_of_lt hR hR' hlt
          simp [write, freePage, this]
        · simp [write, freePage, hidx]
      · -- a table of small pages: the table is a level-0 table of the walk
        have hR₀ : pt.Reaches a 0 pte.addr := .down hR hr (by simpa using hl)
        have htab : t ≠ pte.addr := hT.ne_of_lt hR₀ hR (by decide)
        refine ⟨{ ((pt.write (t, ptIndex a 1) none).writeTable pte.addr fun i =>
              if i < 512 then none else pt.entry pte.addr i) with
            freed := pte.addr :: ((List.range 512).filterMap fun i =>
              (pt.entry pte.addr i).map Pte.addr).reverse ++ pt.freed },
          by simp [unpopulate, hr, hl],
          ((Shrinks.refl pt).write_none _).writeTable fun j e h => by
            split_ifs at h
            exact h,
          rfl, fun y hy => ?_⟩
        obtain ⟨hRy, hidx⟩ := hslot y hy
        refine lookup_none_of_slot hRy (fun l' t' hlt hR' => ?_) ?_
        · have h₁ := hT.ne_of_lt hR hR' hlt
          have h₂ := hT.ne_of_lt hR₀ hR' (by omega)
          simp [write, writeTable, h₁, h₂]
        · simp [write, writeTable, htab, hidx]

/-- The level whose entry unpopulate empties for a unit: 1 for a huge page, 0 for a small
one. -/
def unitLevel (huge : Bool) : ℕ := if huge then 1 else 0

theorem unitLevel_le_one (huge : Bool) : unitLevel huge ≤ 1 := by
  cases huge <;> decide

/-- **One unit.**  The walk of unpopulate from a table the walk for `a` gets to ends; it
keeps the tree, maps nothing that was not mapped, and leaves every address of the unit's
page unmapped.  The induction is on the level, one table a step: an empty entry ends the
walk, a large one is split and the walk goes on in the new table. -/
theorem unpopulate_walk (huge : Bool) (a offset : ℕ) :
    ∀ l t (pt : PageTables), pt.TreeInv → pt.Reaches a l t → (huge = true → 1 ≤ l) →
      ∃ pt', unpopulate.walk huge a offset l (t, ptIndex a l) () pt = some ((), pt') ∧
        pt'.TreeInv ∧ (∀ y, Agree a y (unitLevel huge) → pt'.lookup y = none) ∧
        ∀ y e, pt'.lookup y = some e → (pt.lookup y).isSome := by
  intro l
  induction l with
  | zero =>
      intro t pt hT hR hh
      cases huge with
      | true => exact absurd (hh rfl) (by decide)
      | false =>
          obtain ⟨pt', hleaf, hs, hn, hclear⟩ := unpopulate_smallPage hT hR offset
          refine ⟨pt', hleaf, hT.shrink hs (hn ▸ Nat.le_refl _), hclear, fun y e h => ?_⟩
          rw [hs.lookup h]
          rfl
  | succ l ih =>
      intro t pt hT hR hh
      by_cases hstop : huge = true ∧ l = 0
      · -- a huge page stops at its level-1 entry
        obtain ⟨rfl, rfl⟩ := hstop
        obtain ⟨pt', hleaf, hs, hn, hclear⟩ := unpopulate_hugePage hT hR offset
        refine ⟨pt', hleaf, hT.shrink hs (hn ▸ Nat.le_refl _), hclear, fun y e h => ?_⟩
        rw [hs.lookup h]
        rfl
      have hh' : huge = true → 1 ≤ l := fun h => Nat.pos_of_ne_zero fun h' => hstop ⟨h, h'⟩
      cases hr : pt.read (t, ptIndex a (l + 1)) with
      | none =>
          -- unpopulate allocates no table: the walk ends at the empty entry
          refine ⟨pt, by simp [PageRangeOperation.walk, hstop, hr, unpopulate], hT, fun y hy => ?_,
            fun y e h => by rw [h]; rfl⟩
          have hidx := hy (l + 1) (by have := unitLevel_le_one huge; omega) hR.le_three
          rw [lookup_of_reaches (hR.of_agree (hy.mono (by have := unitLevel_le_one huge; omega)))]
          simp only [lookupFrom, ← hidx]
          rw [show pt.entry t (ptIndex a (l + 1)) = none from hr]
      | some pte =>
          by_cases hl : pte.large = true
          · -- a large entry is split; the walk goes on in the new table
            obtain ⟨pt', hw, hT', hclear, hmono⟩ := ih pt.nextFree _
              (splitLargePage_treeInv hT hR hl) (splitLargePage_reaches_new hT hR) hh'
            refine ⟨pt', ?_, hT', hclear, fun y e h => ?_⟩
            · simp only [PageRangeOperation.walk, hstop, hr, hl, if_false, if_true]
              exact hw
            · obtain ⟨e', he'⟩ := Option.isSome_iff_exists.1 (hmono y e h)
              exact splitLargePage_lookup hT hR hr hl he'
          · have hR' : pt.Reaches a l pte.addr := .down hR hr (by simpa using hl)
            obtain ⟨pt', hw, hT', hclear, hmono⟩ := ih pte.addr pt hT hR' hh'
            refine ⟨pt', ?_, hT', hclear, hmono⟩
            simp only [PageRangeOperation.walk, hstop, hr, hl, if_false]
            exact hw

/-- An address unmapped before later steps that map nothing new stays unmapped. -/
theorem lookup_none_of_mono {pt pt' : PageTables} {y : ℕ} (h : pt.lookup y = none)
    (hmono : ∀ y e, pt'.lookup y = some e → (pt.lookup y).isSome) : pt'.lookup y = none := by
  cases h' : pt'.lookup y with
  | none => rfl
  | some e =>
      have := hmono y e h'
      rw [h] at this
      cases this

/-- **The units of a range.**  unpopulate runs every unit of the range, each ending; the
page tables keep the tree, map nothing new, and map no address of any unit's page. -/
theorem unpopulate_operatePages (start : ℕ) :
    ∀ (units : List (Bool × ℕ)) (pt : PageTables), pt.TreeInv →
      ∃ pt', unpopulate.operatePages start units () pt = some ((), pt') ∧ pt'.TreeInv ∧
        (∀ u ∈ units, ∀ y, Agree u.2 y (unitLevel u.1) → pt'.lookup y = none) ∧
        ∀ y e, pt'.lookup y = some e → (pt.lookup y).isSome
  | [], pt, hT => ⟨pt, rfl, hT, by simp, fun y e h => by rw [h]; rfl⟩
  | (huge, a) :: us, pt, hT => by
      obtain ⟨pt₁, hw, hT₁, hclear₁, hmono₁⟩ :=
        unpopulate_walk huge a (a - start) 3 rootTable pt hT .root fun _ => by decide
      obtain ⟨pt', hrest, hT', hclear, hmono⟩ := unpopulate_operatePages start us pt₁ hT₁
      refine ⟨pt', ?_, hT', fun u hu y hy => ?_, fun y e h => ?_⟩
      · simp only [PageRangeOperation.operatePages, PageRangeOperation.operatePage, hw,
          Option.bind_some]
        exact hrest
      · rcases List.mem_cons.1 hu with rfl | hu
        · exact lookup_none_of_mono (hclear₁ y hy) hmono
        · exact hclear u hu y hy
      · obtain ⟨e', he'⟩ := Option.isSome_iff_exists.1 (hmono y e h)
        exact hmono₁ y e' he'

/-- for (addr = lo; addr < hi; addr += step) visits, for each address of [lo, hi), the step
that holds it. -/
theorem mem_stepsFrom {lo hi step x : ℕ} (hstep : 0 < step) (h₁ : lo ≤ x) (h₂ : x < hi) :
    ∃ k, lo + k * step ∈ stepsFrom lo hi step ∧ lo + k * step ≤ x ∧ x < lo + k * step + step := by
  have hdiv : (x - lo) / step * step ≤ x - lo := Nat.div_mul_le_self _ _
  have hlt : x - lo < (x - lo) / step * step + step := Nat.lt_div_mul_add hstep
  have hle : (x - lo) / step ≤ (hi - lo - 1) / step := Nat.div_le_div_right (by omega)
  have hcount : (hi - lo + step - 1) / step = (hi - lo - 1) / step + 1 := by
    rw [show hi - lo + step - 1 = hi - lo - 1 + step by omega, Nat.add_div_right _ hstep]
  refine ⟨(x - lo) / step, List.mem_map.2 ⟨_, List.mem_range.2 (by omega), rfl⟩, by omega,
    by omega⟩

/-- **The units cover the range.**  Every address of a page-aligned range lies in the page,
small or huge, of one of the units operate cuts it into. -/
theorem operateUnits_cover {start size x : ℕ} (hs : start % pageSize = 0)
    (hsz : size % pageSize = 0) (hov : start + size < wordSize) (hx₁ : start ≤ x)
    (hx₂ : x < start + size) : ∃ u ∈ operateUnits start size, Agree u.2 x (unitLevel u.1) := by
  have hstart : alignDownTo start pageSize = start := alignDown_of_aligned hs
  have hsize : alignUpTo size pageSize = size := by
    unfold alignUpTo alignDownTo
    rw [uadd_of_lt (by unfold wordSize pageSize at *; omega)]
    unfold pageSize at *
    omega
  have hstop : uadd start size = start + size := uadd_of_lt hov
  unfold operateUnits
  dsimp only
  rw [hstart, hsize, hstop]
  -- the three runs: small pages to the first 2MB boundary, huge pages, small pages after
  set hpStart := min (alignUpTo start hugePageSize) (start + size) with hhpStart
  set hpEnd := if alignDownTo (start + size) hugePageSize < start then start + size
    else alignDownTo (start + size) hugePageSize with hhpEnd
  by_cases h₁ : x < hpStart
  · obtain ⟨k, hk, hkx, hxk⟩ := mem_stepsFrom (by decide : 0 < pageSize) hx₁ h₁
    refine ⟨(false, start + k * pageSize),
      List.mem_append_left _ (List.mem_append_left _ (List.mem_map.2 ⟨_, hk, rfl⟩)),
      agree_of_page ?_⟩
    unfold pageSize at *
    omega
  by_cases h₂ : x < hpEnd
  · -- the huge pages start at the 2MB boundary above the range's start
    have hend : hpEnd ≤ start + size := by
      rw [hhpEnd]
      split_ifs
      · exact Nat.le_refl _
      · exact Nat.div_mul_le_self _ _
    have hhp : hpStart = alignUpTo start hugePageSize := Nat.min_eq_left (by omega)
    have halign : alignUpTo start hugePageSize % hugePageSize = 0 := Nat.mul_mod_left _ _
    obtain ⟨k, hk, hkx, hxk⟩ := @mem_stepsFrom hpStart hpEnd hugePageSize x (by decide)
      (by omega) h₂
    refine ⟨(true, hpStart + k * hugePageSize),
      List.mem_append_left _ (List.mem_append_right _ (List.mem_map.2 ⟨_, hk, rfl⟩)),
      agree_of_hugePage ?_⟩
    rw [hhp] at hkx hxk ⊢
    unfold hugePageSize at *
    omega
  · have hal : hpEnd % pageSize = 0 := by
      rw [hhpEnd]
      split_ifs
      · unfold pageSize at *
        omega
      · unfold alignDownTo hugePageSize pageSize
        omega
    obtain ⟨k, hk, hkx, hxk⟩ := @mem_stepsFrom hpEnd (start + size) pageSize x (by decide)
      (by omega) hx₂
    refine ⟨(false, hpEnd + k * pageSize), List.mem_append_right _ (List.mem_map.2 ⟨_, hk, rfl⟩),
      agree_of_page ?_⟩
    unfold pageSize at *
    omega

/-- **unpopulate empties the dead vmas.**  Over page-aligned dead vmas, unpopulateAll ends;
the page tables keep the tree, map nothing new, and map no address a dead vma holds. -/
theorem unpopulateAll_clears :
    ∀ (dead : List Vma) (pt : PageTables), pt.TreeInv →
      (∀ d ∈ dead, d.start ≤ d.stop ∧ d.start % pageSize = 0 ∧ d.stop % pageSize = 0 ∧
        d.stop < wordSize) →
      ∃ pt', unpopulateAll pt dead = some pt' ∧ pt'.TreeInv ∧
        (∀ d ∈ dead, ∀ x, d.Holds x → pt'.lookup x = none) ∧
        ∀ y e, pt'.lookup y = some e → (pt.lookup y).isSome
  | [], pt, hT, _ => ⟨pt, rfl, hT, by simp, fun y e h => by rw [h]; rfl⟩
  | d :: ds, pt, hT, hd => by
      obtain ⟨hle, hsa, hta, htw⟩ := hd d List.mem_cons_self
      have hsub : usub d.stop d.start = d.stop - d.start := usub_of_le htw hle
      obtain ⟨pt₁, hop, hT₁, hclear₁, hmono₁⟩ := unpopulate_operatePages
        (alignDownTo d.start pageSize) (operateUnits d.start (usub d.stop d.start)) pt hT
      obtain ⟨pt', hrest, hT', hclear, hmono⟩ :=
        unpopulateAll_clears ds pt₁ hT₁ fun d' hd' => hd d' (List.mem_cons_of_mem _ hd')
      -- the first dead vma: its units cover it, and the later vmas map nothing new
      have hfirst : ∀ x, d.Holds x → pt'.lookup x = none := by
        intro x hx
        unfold Vma.Holds at hx
        rw [hsub] at hclear₁
        have hsz : (d.stop - d.start) % pageSize = 0 := by
          unfold pageSize at *
          omega
        obtain ⟨u, hu, hag⟩ := operateUnits_cover hsa hsz (by omega) hx.1 (by omega)
        exact lookup_none_of_mono (hclear₁ u hu x hag) hmono
      refine ⟨pt', ?_, hT', fun d' hd' x hx => ?_, fun y e h => ?_⟩
      · simp only [unpopulateAll]
        rw [show unpopulate.operate d.start (usub d.stop d.start) () pt = some ((), pt₁) from hop]
        exact hrest
      · rcases List.mem_cons.1 hd' with rfl | hd'
        · exact hfirst x hx
        · exact hclear d' hd' x hx
      · obtain ⟨e', he'⟩ := Option.isSome_iff_exists.1 (hmono y e h)
        exact hmono₁ y e' he'

end Unpopulate

/-! ## unmap -/

/-- unmap(addr, size) of a page-aligned range is evacuate(start, end). -/
theorem unmap_eq_evacuate {fuel start stop : ℕ} {l : VmaList} (hs : start % pageSize = 0)
    (ht : stop % pageSize = 0) (hlt : start < stop) (htw : stop < wordSize) :
    Osv.Mmu.unmap fuel l start (stop - start) = evacuate fuel start stop l := by
  have hup : alignUp (stop - start) = stop - start := by
    unfold alignUp alignDown
    rw [uadd_of_lt (by unfold wordSize pageSize at *; omega)]
    unfold pageSize at *
    omega
  unfold Osv.Mmu.unmap
  rw [hup, uadd_of_lt (by omega), Nat.add_sub_cancel' (Nat.le_of_lt hlt)]

namespace AddressSpace

/-- The page tables map only addresses that a vma holds, below `areaEnd`.  The walk reads the
low `48` bits of an address, so an address above them is mapped with the one it agrees with. -/
def Backed (m : AddressSpace) : Prop :=
  ∀ x < areaEnd, ∀ e, m.pt.lookup x = some e → ∃ v ∈ m.vmas.vmas, v.Holds x

theorem treeInv_init : AddressSpace.init.pt.TreeInv := by
  -- the root's entries are empty: every walk stays at the root
  have hroot : ∀ x l t, AddressSpace.init.pt.Reaches x l t → l = 3 ∧ t = rootTable := by
    intro x l t h
    induction h with
    | root => exact ⟨rfl, rfl⟩
    | down _ he _ _ => cases he
  refine ⟨fun x y l l' t h₁ h₂ => ?_, fun x l t h => ?_⟩
  · obtain ⟨rfl, rfl⟩ := hroot x l t h₁
    obtain ⟨rfl, -⟩ := hroot y l' _ h₂
    exact ⟨rfl, fun k hk hk3 => absurd hk3 (by omega)⟩
  · obtain ⟨-, rfl⟩ := hroot x l t h
    decide

/-- **unmap removes its range.**  On an address space whose vma list keeps the
representation invariant and one vma to an identity, and whose page tables are a tree that
maps only addresses its vmas hold, unmap of a page-aligned non-empty range ends with fuel for
every vma and three visits more, for a range that ends by `areaEnd`.  Its vma list is
evacuated: no vma holds an address of the range, every address outside it is mapped as before,
and the dead vmas map what the range held.  Its page tables map no address of the range, are
still a tree, and still map only addresses its vmas hold. -/
theorem unmap_removes_range {m : AddressSpace} {start stop fuel : ℕ} (hl : Inv m.vmas)
    (hw : WellFormed m.vmas.vmas) (hT : m.pt.TreeInv) (hb : m.Backed)
    (hs : start % pageSize = 0) (ht : stop % pageSize = 0) (hlt : start < stop)
    (harea : stop ≤ areaEnd) (hfuel : m.vmas.vmas.length + 3 ≤ fuel) :
    ∃ m', m.unmap fuel start (stop - start) = some m' ∧
      (∃ dead, Evacuated start stop m.vmas m'.vmas dead) ∧
      (∀ x, start ≤ x → x < stop → m'.pt.lookup x = none) ∧ m'.pt.TreeInv ∧ m'.Backed := by
  have htw : stop < wordSize := Nat.lt_of_le_of_lt harea (by decide)
  obtain ⟨l', dead, hev, hE⟩ := evacuate_removes_range hl hw hs ht hlt hfuel
  have hdead : ∀ d ∈ dead, d.start ≤ d.stop ∧ d.start % pageSize = 0 ∧ d.stop % pageSize = 0 ∧
      d.stop < wordSize := by
    intro d hd
    obtain ⟨hc, hle, hsa, hta⟩ := hE.dead d hd
    unfold contains at hc
    simp only [Bool.and_eq_true, decide_eq_true_eq] at hc
    exact ⟨hle, hsa, hta, by omega⟩
  obtain ⟨pt', hup, hT', hclear, hmono⟩ := unpopulateAll_clears dead m.pt hT hdead
  -- a mapped address of the range lies in a vma, so in a dead one
  have hrange : ∀ x, start ≤ x → x < stop → pt'.lookup x = none := by
    intro x hx₁ hx₂
    cases hx : m.pt.lookup x with
    | none => exact lookup_none_of_mono hx hmono
    | some e =>
        obtain ⟨v, hv, hvx⟩ := hb x (by omega) e hx
        obtain ⟨d, hd, hdx, -⟩ := (hE.inside x v.perm (v.offset x) hx₁ hx₂).2 ⟨v, hv, hvx, rfl, rfl⟩
        exact hclear d hd x hdx
  refine ⟨⟨l', pt'⟩, ?_, ⟨dead, hE⟩, hrange, hT', fun x hx e h => ?_⟩
  · simp only [AddressSpace.unmap, unmap_eq_evacuate hs ht hlt htw, hev, Option.bind_some, hup,
      Option.map_some]
  · -- a mapping left is one from before, outside the range, where the vmas are as they were
    obtain ⟨e', he'⟩ := Option.isSome_iff_exists.1 (hmono x e h)
    obtain ⟨v, hv, hvx⟩ := hb x hx e' he'
    have hout : x < start ∨ stop ≤ x := by
      by_contra hin
      have := hrange x (by omega) (by omega)
      rw [this] at h
      cases h
    obtain ⟨w, hw', hwx, -⟩ := (hE.outside x v.perm (v.offset x) hout).2 ⟨v, hv, hvx, rfl, rfl⟩
    exact ⟨w, hw', hwx⟩

/-- The 2MB page of `searchStart` mapped to the physical page `0x200000` by a large entry, under
two tables hung from the root as `allocate_intermediate_level` hangs them. -/
def PageTables.hugeAt : PageTables :=
  (((PageTables.init.allocateIntermediateLevel (rootTable, ptIndex searchStart 3)).1.allocateIntermediateLevel
    (0x2000, ptIndex searchStart 2)).1).write (0x3000, ptIndex searchStart 1)
      (some (makePte 0x200000 true permRwx))

theorem treeInv_hugeAt : PageTables.hugeAt.TreeInv := by
  have h₁ := allocateIntermediateLevel_treeInv (a := searchStart) (l := 2) treeInv_init .root
  have hR₁ := allocateIntermediateLevel_reaches_new (a := searchStart) (l := 2) treeInv_init .root
  exact (allocateIntermediateLevel_treeInv h₁ hR₁).write_large rfl

/-- The walks of `hugeAt`: the root, the table under it for the addresses of `searchStart`'s
first index, and the table under that for those of its second. -/
theorem reaches_hugeAt {x k u : ℕ} (h : PageTables.hugeAt.Reaches x k u) :
    k = 3 ∧ u = rootTable ∨ k = 2 ∧ u = 0x2000 ∧ ptIndex x 3 = ptIndex searchStart 3 ∨
      k = 1 ∧ u = 0x3000 ∧ ptIndex x 3 = ptIndex searchStart 3 ∧ ptIndex x 2 = ptIndex searchStart 2 := by
  -- the root's walks in the empty tables
  have hinit : ∀ {k u}, PageTables.init.Reaches x k u → k = 3 ∧ u = rootTable := by
    intro k u h
    cases h with
    | root => exact ⟨rfl, rfl⟩
    | down _ he _ => cases he
  have h₁T := allocateIntermediateLevel_treeInv (a := searchStart) (l := 2) treeInv_init .root
  have hR₁ := allocateIntermediateLevel_reaches_new (a := searchStart) (l := 2) treeInv_init .root
  -- after the first table: the root, or the new table through the root's slot
  have hone : ∀ {k u}, (PageTables.init.allocateIntermediateLevel (rootTable, ptIndex searchStart 3)).1.Reaches x k u →
      k = 3 ∧ u = rootTable ∨ k = 2 ∧ u = 0x2000 ∧ ptIndex x 3 = ptIndex searchStart 3 := by
    intro k u h
    rcases allocateIntermediateLevel_reaches treeInv_init .root h with h | ⟨rfl, rfl, -, hi⟩
    · exact .inl (hinit h)
    · exact .inr ⟨rfl, rfl, hi⟩
  rcases allocateIntermediateLevel_reaches h₁T hR₁ (reaches_of_write_large rfl h) with
    h | ⟨rfl, rfl, h₂, hi₂⟩
  · rcases hone h with h | h
    · exact .inl h
    · exact .inr (.inl h)
  · rcases hone h₂ with ⟨h3, -⟩ | ⟨-, -, hi₃⟩
    · cases h3
    · exact .inr (.inr ⟨rfl, rfl, hi₃, hi₂⟩)

/-- `hugeAt` maps the addresses of the huge page of `searchStart` only. -/
theorem lookup_hugeAt {x : ℕ} {e : Pte} (hx : x < areaEnd) (h : PageTables.hugeAt.lookup x = some e) :
    x / hugePageSize = searchStart / hugePageSize := by
  obtain ⟨k, u, hR, he, hle⟩ := reaches_of_lookup h
  have hroot : ∀ i, PageTables.hugeAt.entry rootTable i =
      if i = ptIndex searchStart 3 then some (makePte 0x2000 false permRwx) else none := fun i => by
    simp [PageTables.hugeAt, allocateIntermediateLevel, allocPage, writeTable, write, PageTables.init,
      rootTable, pageSize]
  have hmid : ∀ i, PageTables.hugeAt.entry 0x2000 i =
      if i = ptIndex searchStart 2 then some (makePte 0x3000 false permRwx) else none := fun i => by
    simp [PageTables.hugeAt, allocateIntermediateLevel, allocPage, writeTable, write, PageTables.init,
      rootTable, pageSize]
  have hlow : ∀ i, PageTables.hugeAt.entry 0x3000 i =
      if i = ptIndex searchStart 1 then some (makePte 0x200000 true permRwx) else none := fun i => by
    simp [PageTables.hugeAt, allocateIntermediateLevel, allocPage, writeTable, write, PageTables.init,
      rootTable, pageSize]
  -- the entries of the two upper tables point to tables: the walk ends at the large entry
  rcases reaches_hugeAt hR with ⟨rfl, rfl⟩ | ⟨rfl, rfl, -⟩ | ⟨rfl, rfl, h₃, h₂⟩
  · rw [hroot] at he
    split_ifs at he
    cases he
    simp [makePte] at hle
  · rw [hmid] at he
    split_ifs at he
    cases he
    simp [makePte] at hle
  · rw [hlow] at he
    split_ifs at he with h₁
    refine div_hugePage_of_agree (Nat.lt_trans hx (by decide)) (by decide) fun j hj hj3 => ?_
    interval_cases j
    · exact h₁
    · exact h₂
    · exact h₃

/-- An address space whose one vma holds the huge page of `searchStart`, mapped. -/
def hugeSpace : AddressSpace :=
  ⟨⟨[bottomMarker, newVma 2 searchStart (searchStart + hugePageSize) 3 .anon, topMarker], 3⟩,
    PageTables.hugeAt⟩

theorem backed_hugeSpace : hugeSpace.Backed := by
  intro x hx e h
  have hdiv := lookup_hugeAt hx h
  have hv : newVma 2 searchStart (searchStart + hugePageSize) 3 .anon =
      ⟨2, searchStart, searchStart + hugePageSize, 3, .anon⟩ := by decide
  refine ⟨newVma 2 searchStart (searchStart + hugePageSize) 3 .anon, by simp [hugeSpace], ?_⟩
  rw [hv]
  show searchStart ≤ x ∧ x < searchStart + hugePageSize
  unfold searchStart hugePageSize at *
  omega

/-- unmap of the first page of `hugeSpace`'s huge page: its walk ends at the large entry, which
unpopulate splits. -/
theorem unmap_removes_range_huge :
    Inv hugeSpace.vmas ∧ WellFormed hugeSpace.vmas.vmas ∧ hugeSpace.pt.TreeInv ∧ hugeSpace.Backed ∧
      hugeSpace.pt.lookup searchStart = some (makePte 0x200000 true permRwx) ∧
      ∃ m', hugeSpace.unmap 6 searchStart (searchStart + 0x1000 - searchStart) = some m' ∧
        (∃ dead, Evacuated searchStart (searchStart + 0x1000) hugeSpace.vmas m'.vmas dead) ∧
        (∀ x, searchStart ≤ x → x < searchStart + 0x1000 → m'.pt.lookup x = none) ∧
        m'.pt.TreeInv ∧ m'.Backed :=
  have hl : Inv hugeSpace.vmas := ⟨by decide, by decide, by decide⟩
  have hw : WellFormed hugeSpace.vmas.vmas := ⟨by decide, by decide, by decide, by decide⟩
  ⟨hl, hw, treeInv_hugeAt, backed_hugeSpace, by decide,
    unmap_removes_range hl hw treeInv_hugeAt backed_hugeSpace (by decide) (by decide) (by decide)
      (by decide) (by decide)⟩

end AddressSpace

end Osv.Mmu
