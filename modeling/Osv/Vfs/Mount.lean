import Mathlib.Data.List.Basic

/-!
# Mount points: `count_match` and `vfs_findroot`

`vfs_findroot(path, &mp, &root)` (`fs/vfs/vfs_mount.cc`) walks `mount_list` and keeps the
mount whose `m_path` gets the highest `count_match(path, m_path)`, the first of equal ones; it
sets `*root` to the rest of `path` after that many characters, one leading `/` skipped.
`count_match` compares the two strings character by character: both cursors step past the pair
compared before the loop tests it, so after a mismatch they stand one past the mismatching
characters.  A C string is the `List Char` of its characters before the `NUL`.

**The intended rule.**  A mount path leads a path when it is the path itself or a run of
whole components at its front (`ComponentPrefix`); `/` leads every absolute path.

**What holds.**  A mount path that leads the path counts its whole length
(`countMatch_of_componentPrefix`); any other count is `0` or a near miss (`NearMiss`): the
path agrees with the mount path up to its last character and differs there
(`countMatch_cases`).  With no near miss among the mounts, `vfs_findroot` picks the longest
mount that leads the path and the rest after it (`vfsFindroot_of_no_nearMiss`).

**What does not.**  A near miss counts one less than the mount path's length, which beats
`/`: with `/` and `/dev` mounted, `/dex` resolves to `/dev` with the rest `x`.
-/

namespace Osv.Vfs

/-- A mount as `vfs_findroot` and `namei` read it: `m_path`, and `m_root`, the dentry of its
root directory. -/
structure Mount where
  mPath : List Char
  mRoot : ℕ
  deriving DecidableEq, Repr

/-- `count_match`'s loop on the two cursors: the count of equal pairs, both cursors after the
loop, and the last character it read from `path` (what `*(path - 1)` reads). -/
def countMatchLoop :
    List Char → List Char → ℕ → Option Char → ℕ × List Char × List Char × Option Char
  | c :: path, m :: mountRoot, len, _ =>
      if c = m then countMatchLoop path mountRoot (len + 1) (some c)
      else (len, path, mountRoot, some c)
  | path, mountRoot, len, prev => (len, path, mountRoot, prev)

/-- `count_match(path, mount_root)`. -/
def countMatch (path mountRoot : List Char) : ℕ :=
  match countMatchLoop path mountRoot 0 none with
  | (len, path, mountRoot, prev) =>
      if mountRoot ≠ [] then 0
      else if len = 1 ∧ prev = some '/' then 1
      else if path = [] ∨ path.head? = some '/' then len
      else 0

/-- The loop over `mount_list`: the highest count so far and its mount, replaced only by a
strictly higher count. -/
def findrootLoop (path : List Char) : List Mount → ℕ → Option Mount → ℕ × Option Mount
  | [], maxLen, m => (maxLen, m)
  | tmp :: mounts, maxLen, m =>
      if maxLen < countMatch path tmp.mPath then
        findrootLoop path mounts (countMatch path tmp.mPath) (some tmp)
      else findrootLoop path mounts maxLen m

/-- One leading `/` skipped: `if (**root == '/') (*root)++`. -/
def skipSlash (root : List Char) : List Char :=
  if root.head? = some '/' then root.tail else root

/-- `vfs_findroot(path, &mp, &root)`: the mount and the rest of the path, or none for `-1`. -/
def vfsFindroot (mountList : List Mount) (path : List Char) : Option (Mount × List Char) :=
  match findrootLoop path mountList 0 none with
  | (_, none) => none
  | (maxLen, some m) => some (m, skipSlash (path.drop maxLen))

/-! ## The intended rule -/

/-- `mPath` leads `path`: it is the path, or the path goes on with a `/` after it, or it is the
root `/` in front of an absolute path. -/
def ComponentPrefix (mPath path : List Char) : Prop :=
  mPath <+: path ∧ ((path.drop mPath.length).head? = none ∨
    (path.drop mPath.length).head? = some '/' ∨ mPath = ['/'])

instance (mPath path : List Char) : Decidable (ComponentPrefix mPath path) :=
  inferInstanceAs (Decidable (_ ∧ _))

/-- The path agrees with `init ++ [z]` but for its last character, and `count_match` lets it
through: the character after is the end or a `/`, or the mount path has two characters and the
path a `/` in the second place. -/
def NearMiss (mPath path : List Char) : Prop :=
  ∃ init z c rest, mPath = init ++ [z] ∧ path = init ++ c :: rest ∧ c ≠ z ∧
    ((init.length = 1 ∧ c = '/') ∨ (init ≠ [] ∧ (rest = [] ∨ rest.head? = some '/')))

/-- A well-formed `mount_list` entry: absolute, and no trailing `/` but for the root. -/
def MountPathOk (p : List Char) : Prop :=
  p.head? = some '/' ∧ (p = ['/'] ∨ p.getLast? ≠ some '/')

instance (p : List Char) : Decidable (MountPathOk p) :=
  inferInstanceAs (Decidable (_ ∧ _))

/-! ## `count_match` -/

theorem countMatchLoop_cons_cons (c m : Char) (path mountRoot : List Char) (len : ℕ)
    (prev : Option Char) :
    countMatchLoop (c :: path) (m :: mountRoot) len prev =
      if c = m then countMatchLoop path mountRoot (len + 1) (some c)
      else (len, path, mountRoot, some c) := rfl

theorem countMatchLoop_nil_left (mountRoot : List Char) (len : ℕ) (prev : Option Char) :
    countMatchLoop [] mountRoot len prev = (len, [], mountRoot, prev) := rfl

theorem countMatchLoop_nil_right (path : List Char) (len : ℕ) (prev : Option Char) :
    countMatchLoop path [] len prev = (len, path, [], prev) := by
  cases path <;> rfl

/-- The loop runs through a mount path that the path starts with. -/
theorem countMatchLoop_append (m rest : List Char) (len : ℕ) (prev : Option Char) :
    countMatchLoop (m ++ rest) m len prev = (len + m.length, rest, [], m.getLast?.or prev) := by
  induction m generalizing len prev with
  | nil => simp [countMatchLoop_nil_right]
  | cons c m ih =>
      simp only [List.cons_append, countMatchLoop_cons_cons, ↓reduceIte, ih, List.length_cons,
        List.getLast?_cons, Option.or_some]
      refine Prod.ext (by omega) ?_
      cases m.getLast? <;> rfl

/-- The loop stops at the first mismatch, one past it. -/
theorem countMatchLoop_mismatch (init rest mount : List Char) (c z : Char) (len : ℕ)
    (prev : Option Char) (hcz : c ≠ z) :
    countMatchLoop (init ++ c :: rest) (init ++ z :: mount) len prev =
      (len + init.length, rest, mount, some c) := by
  induction init generalizing len prev with
  | nil => simp [countMatchLoop_cons_cons, hcz]
  | cons d init ih =>
      simp only [List.cons_append, countMatchLoop_cons_cons, ↓reduceIte, ih]
      simp only [List.length_cons]
      refine Prod.ext (by omega) rfl

/-- **A mount path that leads the path counts its whole length.** -/
theorem countMatch_of_componentPrefix {m path : List Char} (hm : m ≠ [])
    (h : ComponentPrefix m path) : countMatch path m = m.length := by
  obtain ⟨⟨rest, rfl⟩, hrest⟩ := h
  rw [List.drop_left] at hrest
  unfold countMatch
  rw [countMatchLoop_append m rest 0 none, Option.or_none]
  simp only [ne_eq, not_true_eq_false, if_false, Nat.zero_add]
  by_cases hone : m.length = 1 ∧ m.getLast? = some '/'
  · rw [if_pos hone, hone.1]
  · rw [if_neg hone]
    -- the root `/` with anything after it would have been the case above
    have hrest' : rest = [] ∨ rest.head? = some '/' := by
      rcases hrest with h | h | rfl
      · exact .inl (List.head?_eq_none_iff.mp h)
      · exact .inr h
      · exact absurd ⟨rfl, rfl⟩ hone
    rw [if_pos hrest']

/-- The loop runs to the end of a path that stops inside the mount path. -/
theorem countMatchLoop_short (path mount : List Char) (z : Char) (len : ℕ) (prev : Option Char) :
    ∃ prev', countMatchLoop path (path ++ z :: mount) len prev =
      (len + path.length, [], z :: mount, prev') := by
  induction path generalizing len prev with
  | nil => exact ⟨prev, by simp [countMatchLoop_nil_left]⟩
  | cons c path ih =>
      obtain ⟨prev', h⟩ := ih (len + 1) (some c)
      refine ⟨prev', ?_⟩
      simp only [List.cons_append, countMatchLoop_cons_cons, ↓reduceIte, h, List.length_cons]
      refine Prod.ext (by omega) rfl

/-- Two lists: the second leads the first, or they differ at some place, or the first stops
inside the second. -/
theorem prefix_or_mismatch_or_short {α : Type*} [DecidableEq α] (p m : List α) :
    m <+: p ∨ (∃ init c z rest mount, c ≠ z ∧ p = init ++ c :: rest ∧ m = init ++ z :: mount) ∨
      ∃ z mount, m = p ++ z :: mount := by
  induction m generalizing p with
  | nil => exact .inl (List.nil_prefix)
  | cons z m ih =>
      cases p with
      | nil => exact .inr (.inr ⟨z, m, rfl⟩)
      | cons c p =>
          by_cases hcz : c = z
          · subst hcz
            rcases ih p with hpre | ⟨init, d, y, rest, mount, hdy, rfl, rfl⟩ | ⟨y, mount, rfl⟩
            · exact .inl (List.cons_prefix_cons.mpr ⟨rfl, hpre⟩)
            · exact .inr (.inl ⟨c :: init, d, y, rest, mount, hdy, rfl, rfl⟩)
            · exact .inr (.inr ⟨y, mount, rfl⟩)
          · exact .inr (.inl ⟨[], c, z, p, m, hcz, rfl, rfl⟩)

/-- What `count_match` returns: the mount path's length when it leads the path, one less on a
near miss, and `0` otherwise. -/
theorem countMatch_cases (path m : List Char) (hm : m ≠ []) :
    (ComponentPrefix m path ∧ countMatch path m = m.length) ∨
    (NearMiss m path ∧ countMatch path m = m.length - 1) ∨ countMatch path m = 0 := by
  by_cases hcp : ComponentPrefix m path
  · exact .inl ⟨hcp, countMatch_of_componentPrefix hm hcp⟩
  refine .inr ?_
  unfold countMatch
  rcases prefix_or_mismatch_or_short path m with
    ⟨rest, rfl⟩ | ⟨init, c, z, rest, mount, hcz, rfl, rfl⟩ | ⟨z, mount, rfl⟩
  · -- the path holds the mount path: the count is its length or `0`
    rw [countMatchLoop_append m rest 0 none, Option.or_none]
    have hnotroot : ¬ (0 + m.length = 1 ∧ m.getLast? = some '/') := by
      rintro ⟨hlen, hlast⟩
      obtain ⟨d, rfl⟩ := List.length_eq_one_iff.mp (show m.length = 1 by omega)
      cases hlast
      exact hcp ⟨List.prefix_append _ _, .inr (.inr rfl)⟩
    have hnotend : ¬ (rest = [] ∨ rest.head? = some '/') := by
      intro h
      refine hcp ⟨List.prefix_append _ _, ?_⟩
      rw [List.drop_left]
      rcases h with h | h
      · exact .inl (by simp [h])
      · exact .inr (.inl h)
    exact .inr (by simp only [ne_eq, not_true_eq_false, if_false, if_neg hnotroot, if_neg hnotend])
  · rw [countMatchLoop_mismatch init rest mount c z 0 none hcz]
    rcases eq_or_ne mount [] with rfl | hmount
    · -- a mismatch at the last character of the mount path
      have hlen : (init ++ [z]).length - 1 = init.length := by simp
      simp only [ne_eq, not_true_eq_false, if_false, Nat.zero_add, Option.some.injEq, hlen]
      by_cases hroot : init.length = 1 ∧ c = '/'
      · exact .inl ⟨⟨init, z, c, rest, rfl, rfl, hcz, .inl hroot⟩, by rw [if_pos hroot, hroot.1]⟩
      · rw [if_neg hroot]
        by_cases hend : rest = [] ∨ rest.head? = some '/'
        · rw [if_pos hend]
          rcases eq_or_ne init [] with rfl | hinit
          · exact .inr rfl
          · exact .inl ⟨⟨init, z, c, rest, rfl, rfl, hcz, .inr ⟨hinit, hend⟩⟩, rfl⟩
        · exact .inr (if_neg hend)
    · -- a mismatch earlier: characters of the mount path are left
      exact .inr (if_pos hmount)
  · -- the path stops inside the mount path
    obtain ⟨prev', h⟩ := countMatchLoop_short path mount z 0 none
    rw [h]
    exact .inr (if_pos (List.cons_ne_nil z mount))

/-! ## `vfs_findroot` -/

/-- **The mount loop keeps the highest count**: it ends at least where it started, above every
mount's count, and either where it started or at a mount that has the count it ends with. -/
theorem findrootLoop_spec (path : List Char) (mounts : List Mount) (maxLen : ℕ)
    (m : Option Mount) :
    maxLen ≤ (findrootLoop path mounts maxLen m).1 ∧
    (∀ t ∈ mounts, countMatch path t.mPath ≤ (findrootLoop path mounts maxLen m).1) ∧
    (findrootLoop path mounts maxLen m = (maxLen, m) ∨
      ∃ t ∈ mounts, (findrootLoop path mounts maxLen m).2 = some t ∧
        countMatch path t.mPath = (findrootLoop path mounts maxLen m).1) := by
  induction mounts generalizing maxLen m with
  | nil => simp [findrootLoop]
  | cons tmp mounts ih =>
      by_cases hlt : maxLen < countMatch path tmp.mPath
      · -- `tmp` replaces the mount so far
        obtain ⟨hle, hall, hend⟩ := ih (countMatch path tmp.mPath) (some tmp)
        simp only [findrootLoop, if_pos hlt]
        refine ⟨by omega, ?_, ?_⟩
        · intro t ht
          rcases List.mem_cons.mp ht with rfl | ht
          · exact hle
          · exact hall t ht
        · rcases hend with hend | ⟨t, ht, hsome, hcount⟩
          · exact .inr ⟨tmp, List.mem_cons_self, by rw [hend], by rw [hend]⟩
          · exact .inr ⟨t, List.mem_cons_of_mem _ ht, hsome, hcount⟩
      · obtain ⟨hle, hall, hend⟩ := ih maxLen m
        simp only [findrootLoop, if_neg hlt]
        refine ⟨hle, ?_, ?_⟩
        · intro t ht
          rcases List.mem_cons.mp ht with rfl | ht
          · omega
          · exact hall t ht
        · rcases hend with hend | ⟨t, ht, hsome, hcount⟩
          · exact .inl hend
          · exact .inr ⟨t, List.mem_cons_of_mem _ ht, hsome, hcount⟩

/-- **`vfs_findroot` with no near miss**: when some mount leads the path and no mount path
nearly matches it, `vfs_findroot` returns the longest mount that leads the path, and the rest
of the path after it with one `/` skipped. -/
theorem vfsFindroot_of_no_nearMiss {mounts : List Mount} {path : List Char}
    (hne : ∀ t ∈ mounts, t.mPath ≠ []) (hnear : ∀ t ∈ mounts, ¬ NearMiss t.mPath path)
    (hroot : ∃ t ∈ mounts, ComponentPrefix t.mPath path) :
    ∃ t ∈ mounts, vfsFindroot mounts path = some (t, skipSlash (path.drop t.mPath.length)) ∧
      ComponentPrefix t.mPath path ∧
      ∀ t' ∈ mounts, ComponentPrefix t'.mPath path → t'.mPath.length ≤ t.mPath.length := by
  -- without near misses every count is the mount path's length or `0`
  have hcount : ∀ t ∈ mounts, (ComponentPrefix t.mPath path ∧
      countMatch path t.mPath = t.mPath.length) ∨ countMatch path t.mPath = 0 := by
    intro t ht
    rcases countMatch_cases path t.mPath (hne t ht) with h | ⟨hmiss, -⟩ | h
    · exact .inl h
    · exact absurd hmiss (hnear t ht)
    · exact .inr h
  obtain ⟨t₀, ht₀, hcp₀⟩ := hroot
  obtain ⟨-, hall, hend⟩ := findrootLoop_spec path mounts 0 none
  have hpos : 0 < (findrootLoop path mounts 0 none).1 := by
    have h₀ := hall t₀ ht₀
    rw [countMatch_of_componentPrefix (hne t₀ ht₀) hcp₀] at h₀
    have := List.length_pos_of_ne_nil (hne t₀ ht₀)
    omega
  rcases hend with hend | ⟨t, ht, hsome, hmax⟩
  · rw [hend] at hpos
    exact absurd hpos (Nat.lt_irrefl 0)
  · have hcp : ComponentPrefix t.mPath path ∧ countMatch path t.mPath = t.mPath.length := by
      rcases hcount t ht with h | h
      · exact h
      · omega
    refine ⟨t, ht, ?_, hcp.1, fun t' ht' hcp' => ?_⟩
    · unfold vfsFindroot
      revert hsome hmax
      rcases findrootLoop path mounts 0 none with ⟨maxLen, _ | m⟩
      · intro hsome
        cases hsome
      · intro hsome hmax
        cases hsome
        have hlen : maxLen = t.mPath.length := hmax.symm.trans hcp.2
        rw [hlen]
    · rw [← countMatch_of_componentPrefix (hne t' ht') hcp', ← hcp.2, hmax]
      exact hall t' ht'

/-- The mount `vfs_findroot` returns is one of the list. -/
theorem vfsFindroot_mem {mounts : List Mount} {path : List Char} {m : Mount} {p : List Char}
    (h : vfsFindroot mounts path = some (m, p)) : m ∈ mounts := by
  obtain ⟨-, -, hend⟩ := findrootLoop_spec path mounts 0 none
  unfold vfsFindroot at h
  rcases hend with hend | ⟨t, ht, hsome, -⟩
  · rw [hend] at h
    cases h
  · revert h hsome
    rcases findrootLoop path mounts 0 none with ⟨maxLen, _ | m'⟩
    · intro h
      cases h
    · intro h hsome
      cases h
      cases hsome
      exact ht

/-- `/` and `/dev` mounted. -/
def devMounts : List Mount := [⟨"/".toList, 0⟩, ⟨"/dev".toList, 1⟩]

theorem vfs_findroot_near_miss :
    (∀ t ∈ devMounts, MountPathOk t.mPath) ∧ devMounts.Pairwise (fun a b => a.mPath ≠ b.mPath) ∧
    ComponentPrefix "/".toList "/dex".toList ∧ ¬ ComponentPrefix "/dev".toList "/dex".toList ∧
    vfsFindroot devMounts "/dex".toList = some (⟨"/dev".toList, 1⟩, "x".toList) := by
  decide

end Osv.Vfs
