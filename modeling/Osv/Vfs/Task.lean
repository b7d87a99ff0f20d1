import Mathlib.Data.List.Basic

/-!
# Path conversion: `task_conv`

`task_conv(t, cpath, acc, full)` (`fs/vfs/vfs_task.c`) writes into the caller's buffer `full` the
absolute path that `cpath` names from the task's `t_cwd`.  An absolute `cpath` starts the
output at its `/`; a relative one starts it with `cwd`, and with a `/` after it unless `cwd` is
`/` or `cpath` starts with `.`.  The loop then reads `cpath` one component at a time, up to the
next `/` (which it overwrites with `NUL`): `..` backs up over the last component written, `.` is
skipped, any other name is copied, and a `/` is written after a component that a `/` followed,
unless the output already ends with one.

**The model.**  `full` is a function from offsets to characters and `ConvState` the cursors
`tgt` (an offset into `full`) and `len`; the ghost `peak` is one past the highest offset
written.  The components are `src.splitOn '/'`: the loop's `if (p == end) break` ends it after
the last, and its `while (*src)` ends it only where the last name is empty, which changes
nothing.  `..` backs up with `backUp`, which stops at offset `0`; every run has a `/` there.

**What holds** (`taskConv_spec`).  For a canonical `cwd` and a `cpath` that is absolute, does not
start with `.`, or starts with the component `.` or `..`, the output is the normal form of the
components of the path, or of `cwd` and the path, each followed by `/` but the last.

**What does not** (`task_conv_dot_name_and_overflow`).  A relative name that merely starts with
`.` is glued to `cwd`: from `/home`, `.profile` becomes `/home.profile`.  The length check lets
`strlen(cwd) + strlen(path)` reach `PATH_MAX - 1`, and the `/` after `cwd` and the final `NUL`
then take the output to `PATH_MAX + 1` bytes.
-/

namespace Osv.Vfs

def PATH_MAX : ℕ := 4096
def ENAMETOOLONG : ℕ := 36

/-- `'\0'` -/
def nul : Char := Char.ofNat 0

/-- The output buffer and the cursors of `task_conv`: `full`, the offset `tgt` of the cursor
into it, and `len`; the ghost `peak` is one past the highest offset written. -/
structure ConvState where
  full : ℕ → Char
  tgt : ℕ
  len : ℕ
  peak : ℕ

namespace ConvState

/-- `*tgt++ = c; len++;` -/
def put (s : ConvState) (c : Char) : ConvState :=
  ⟨Function.update s.full s.tgt c, s.tgt + 1, s.len + 1, max s.peak (s.tgt + 1)⟩

/-- The path written so far: the bytes of `full` before the cursor. -/
def written (s : ConvState) : List Char := (List.range s.tgt).map s.full

end ConvState

/-- `while (*tgt != '/') { tgt--; len--; }` from the offset `tgt`, stopping at offset `0`. -/
def backUp (full : ℕ → Char) : ℕ → ℕ → ℕ × ℕ
  | 0, len => (0, len)
  | tgt + 1, len => if full (tgt + 1) = '/' then (tgt + 1, len) else backUp full tgt (len - 1)

/-- A `..` component: back up over the `/` just written and the component before it, to the `/`
in front of that component, keeping the root's. -/
def dotDot (s : ConvState) : ConvState :=
  if 2 ≤ s.len then
    match backUp s.full (s.tgt - 2) (s.len - 2) with
    | (tgt, len) =>
        if len = 0 then { s with tgt := tgt + 1, len := len + 1 }
        else { s with tgt := tgt, len := len }
  else s

/-- One component of the path, the name between `src` and the `NUL` at `p`. -/
def component (s : ConvState) (name : List Char) : ConvState :=
  if name = ['.', '.'] then dotDot s
  else if name = ['.'] then s
  else name.foldl ConvState.put s

/-- After a component that a `/` followed: a `/`, unless the output ends with one. -/
def separator (s : ConvState) : ConvState :=
  if 0 < s.len ∧ s.full (s.tgt - 1) ≠ '/' then s.put '/' else s

/-- The loop over the components, a separator after each but the last. -/
def convLoop : List (List Char) → ConvState → ConvState
  | [], s => s
  | [name], s => component s name
  | name :: names, s => convLoop names (separator (component s name))

/-- `strlcpy(full, cwd, PATH_MAX)` for a `cwd` shorter than `PATH_MAX`. -/
def strlcpyCwd (full : ℕ → Char) (cwd : List Char) : ℕ → Char := fun i =>
  if h : i < cwd.length then cwd[i] else if i = cwd.length then nul else full i

/-- The cursors once `full` is started: at the `/` of an absolute path, or after `cwd` and, for
a relative path that does not start with `.`, a `/`; with the rest of the path to read. -/
def convStart (cwd path : List Char) (full : ℕ → Char) : ConvState × List Char :=
  match path with
  | '/' :: src => (ConvState.put ⟨full, 0, 0, 0⟩ '/', src)
  | _ =>
      let s : ConvState := ⟨strlcpyCwd full cwd, cwd.length, cwd.length, cwd.length + 1⟩
      (if 1 < cwd.length ∧ path.head? ≠ some '.' then s.put '/' else s, path)

/-- `task_conv(t, cpath, acc, full)` with `t->t_cwd = cwd`: the error, or the buffer and cursors
after the final `*tgt = '\0'`. -/
def taskConv (cwd cpath : List Char) (full : ℕ → Char) : Except ℕ ConvState :=
  let path := cpath.take (PATH_MAX - 1)
  if PATH_MAX ≤ path.length then .error ENAMETOOLONG
  else if PATH_MAX ≤ cwd.length + path.length then .error ENAMETOOLONG
  else
    let s := convLoop ((convStart cwd path full).2.splitOn '/') (convStart cwd path full).1
    .ok ⟨Function.update s.full s.tgt nul, s.tgt, s.len, max s.peak (s.tgt + 1)⟩

/-! ## The intended result -/

/-- One step of the lexical normalisation: drop empty and `.` components, and let `..` remove
the component before it (nothing at the root). -/
def normStep (acc : List (List Char)) (c : List Char) : List (List Char) :=
  if c = [] ∨ c = ['.'] then acc else if c = ['.', '.'] then acc.dropLast else acc ++ [c]

/-- The lexical normalisation of a list of components. -/
def normalize (comps : List (List Char)) : List (List Char) := comps.foldl normStep []

/-- The non-empty components of a path. -/
def components (p : List Char) : List (List Char) := (p.splitOn '/').filter (· ≠ [])

/-- The absolute path of the components `acc`, with a `/` at the end when `sep` holds. -/
def render (acc : List (List Char)) (sep : Bool) : List Char :=
  '/' :: (['/'].intercalate acc ++ if sep = true ∧ acc ≠ [] then ['/'] else [])

/-- A component that the normalisation keeps: not empty, no `/`, neither `.` nor `..`. -/
def Plain (c : List Char) : Prop := c ≠ [] ∧ '/' ∉ c ∧ c ≠ ['.'] ∧ c ≠ ['.', '.']

instance (c : List Char) : Decidable (Plain c) := inferInstanceAs (Decidable (_ ∧ _))

/-- A canonical working directory: the absolute path of plain components. -/
def Canonical (cwd : List Char) : Prop := ∃ comps, (∀ c ∈ comps, Plain c) ∧ cwd = render comps false

/-! ## The output buffer -/

namespace ConvState

@[simp] theorem put_tgt (s : ConvState) (c : Char) : (s.put c).tgt = s.tgt + 1 := rfl
@[simp] theorem put_len (s : ConvState) (c : Char) : (s.put c).len = s.len + 1 := rfl

@[simp] theorem length_written (s : ConvState) : s.written.length = s.tgt := by
  simp [written]

theorem written_put (s : ConvState) (c : Char) : (s.put c).written = s.written ++ [c] := by
  simp only [written, put, List.range_succ, List.map_append, List.map_cons, List.map_nil,
    Function.update_self]
  congr 1
  refine List.map_congr_left fun i hi => Function.update_of_ne ?_ _ _
  exact Nat.ne_of_lt (List.mem_range.mp hi)

/-- Copying a name appends it to the output. -/
theorem foldl_put (s : ConvState) (name : List Char) :
    (name.foldl put s).written = s.written ++ name ∧ (name.foldl put s).tgt = s.tgt + name.length ∧
      (name.foldl put s).len = s.len + name.length := by
  induction name generalizing s with
  | nil => simp
  | cons c name ih =>
      obtain ⟨hw, ht, hl⟩ := ih (s.put c)
      simp only [List.foldl_cons, hw, written_put, ht, put_tgt, hl, put_len, List.length_cons,
        List.append_assoc, List.singleton_append]
      exact ⟨trivial, by omega, by omega⟩

/-- A byte before the cursor is the output's. -/
theorem getElem?_written (s : ConvState) {i : ℕ} (hi : i < s.tgt) :
    s.written[i]? = some (s.full i) := by
  simp [written, hi]

end ConvState

/-- `backUp` from `k` stops at the `/` at `j`, when no `/` lies between. -/
theorem backUp_spec (full : ℕ → Char) {j k : ℕ} (len : ℕ) (hj : full j = '/')
    (hjk : j ≤ k) (hnone : ∀ i, j < i → i ≤ k → full i ≠ '/') :
    backUp full k len = (j, len - (k - j)) := by
  induction k generalizing len with
  | zero =>
      obtain rfl : j = 0 := by omega
      rfl
  | succ k ih =>
      rcases Nat.eq_or_lt_of_le hjk with rfl | hlt
      · simp [backUp, hj]
      · have hk : full (k + 1) ≠ '/' := hnone (k + 1) hlt (Nat.le_refl _)
        simp only [backUp, if_neg hk]
        rw [ih (len - 1) (by omega) fun i hi hik => hnone i hi (by omega)]
        refine Prod.ext rfl ?_
        simp only
        omega

theorem ConvState.written_of_le (s : ConvState) {t : ℕ} (l : ℕ) (ht : t ≤ s.tgt) :
    ({ s with tgt := t, len := l } : ConvState).written = s.written.take t := by
  simp only [written, ← List.map_take, List.take_range, Nat.min_eq_left ht]

/-! ## Rendering components -/

theorem intercalate_append_singleton {α : Type*} (ys l : List α) {zs : List (List α)}
    (hzs : zs ≠ []) : ys.intercalate (zs ++ [l]) = ys.intercalate zs ++ ys ++ l := by
  induction zs with
  | nil => exact absurd rfl hzs
  | cons z zs ih =>
      rcases eq_or_ne zs [] with rfl | hne
      · simp
      · rw [List.cons_append, List.intercalate_cons_of_ne_nil (by simp),
          List.intercalate_cons_of_ne_nil hne, ih hne]
        simp

/-- The path of `init ++ [last]`: the path of `init` (nothing for the root), a `/`, the last
component and the final `/`. -/
theorem render_snoc (init : List (List Char)) (last : List Char) (sep : Bool) :
    render (init ++ [last]) sep =
      (if init = [] then [] else render init false) ++ '/' :: (last ++ if sep then ['/'] else []) := by
  rcases eq_or_ne init [] with rfl | hinit
  · simp [render]
  · simp [render, intercalate_append_singleton _ _ hinit, hinit]

@[simp] theorem render_nil (sep : Bool) : render [] sep = ['/'] := by
  simp [render]

/-- A name after a final `/` is one more component. -/
theorem render_append_name {acc : List (List Char)} {sep : Bool} (hsep : sep = true ∨ acc = [])
    (name : List Char) : render acc sep ++ name = render (acc ++ [name]) false := by
  rw [render_snoc]
  rcases eq_or_ne acc [] with rfl | hacc
  · simp
  · obtain rfl : sep = true := hsep.resolve_right hacc
    simp [render, hacc]

/-- A `/` after the last component. -/
theorem render_append_slash {acc : List (List Char)} (hacc : acc ≠ []) :
    render acc false ++ ['/'] = render acc true := by
  simp [render, hacc]

/-- The components of a path split at `/` hold no `/`. -/
theorem not_mem_of_mem_splitOn {xs n : List Char} (hn : n ∈ xs.splitOn '/') : '/' ∉ n := by
  induction xs generalizing n with
  | nil =>
      simp only [List.splitOn_nil, List.mem_singleton] at hn
      simp [hn]
  | cons x xs ih =>
      rw [List.splitOn_cons_eq_if_modifyHead] at hn
      by_cases hx : x = '/'
      · simp only [hx, beq_self_eq_true, if_true, List.mem_cons] at hn
        rcases hn with rfl | hn
        · simp
        · exact ih hn
      · have hbeq : (x == '/') = false := beq_eq_false_iff_ne.mpr hx
        rw [hbeq, if_neg Bool.false_ne_true] at hn
        obtain ⟨y, ys, hys⟩ := List.exists_cons_of_ne_nil (List.splitOn_ne_nil '/' xs)
        rw [hys, List.modifyHead_cons, List.mem_cons] at hn
        rcases hn with rfl | hn
        · simp only [List.mem_cons, not_or]
          exact ⟨Ne.symm hx, ih (by rw [hys]; exact List.mem_cons_self)⟩
        · exact ih (by rw [hys]; exact List.mem_cons_of_mem _ hn)

/-- **The components of a rendered path** are the components rendered. -/
theorem components_render {acc : List (List Char)} (hacc : ∀ c ∈ acc, c ≠ [] ∧ '/' ∉ c)
    (sep : Bool) : components (render acc sep) = acc := by
  have hsplit : (['/'].intercalate acc).splitOn '/' = if acc = [] then [[]] else acc := by
    rcases eq_or_ne acc [] with rfl | hne
    · rfl
    · rw [if_neg hne, List.splitOn_intercalate '/' (fun l hl => (hacc l hl).2) hne]
  unfold components render
  rw [List.splitOn_cons_eq_if_modifyHead, if_pos (beq_self_eq_true '/')]
  by_cases hs : sep = true ∧ acc ≠ []
  · rw [if_pos hs, List.splitOn_append_cons_self, hsplit, if_neg hs.2]
    simpa using fun a ha => (hacc a ha).1
  · rw [if_neg hs, List.append_nil, hsplit]
    split_ifs with h
    · simp [h]
    · simpa using fun a ha => (hacc a ha).1

/-! ## The loop invariant -/

/-- The output so far is the path of the components `acc`, with a final `/` when `sep` holds,
and `len` is the cursor's offset. -/
structure ConvInv (s : ConvState) (acc : List (List Char)) (sep : Bool) : Prop where
  written : s.written = render acc sep
  len : s.len = s.tgt
  comps : ∀ c ∈ acc, c ≠ [] ∧ '/' ∉ c

/-- The byte at an offset before the cursor, read off the output. -/
theorem ConvState.full_eq {s : ConvState} {w : List Char} (hw : s.written = w) {i : ℕ} {c : Char}
    (hi : w[i]? = some c) : s.full i = c := by
  have hlt : i < s.tgt := by
    rw [← s.length_written, hw]
    exact (List.getElem?_eq_some_iff.mp hi).1
  have := s.getElem?_written hlt
  rw [hw, hi] at this
  exact (Option.some.inj this).symm

theorem ConvInv.full_eq {s : ConvState} {acc sep} (h : ConvInv s acc sep) {i : ℕ} {c : Char}
    (hi : (render acc sep)[i]? = some c) : s.full i = c :=
  ConvState.full_eq h.written hi

/-- **A separator** ends the output with a `/`. -/
theorem ConvInv.separator {s : ConvState} {acc sep} (h : ConvInv s acc sep) :
    ConvInv (Osv.Vfs.separator s) acc true := by
  have htgt : s.tgt = (render acc sep).length := by rw [← s.length_written, h.written]
  rcases eq_or_ne acc [] with rfl | hacc
  · -- the root: the output is `/` already
    have hslash : s.full (s.tgt - 1) = '/' := h.full_eq (by simp [htgt])
    have hno : ¬ (0 < s.len ∧ s.full (s.tgt - 1) ≠ '/') := fun hc => hc.2 hslash
    simp only [Osv.Vfs.separator, if_neg hno]
    exact ⟨by rw [h.written]; simp, h.len, h.comps⟩
  · cases sep with
    | true =>
        have hslash : s.full (s.tgt - 1) = '/' := h.full_eq (by simp [htgt, render, hacc])
        have hno : ¬ (0 < s.len ∧ s.full (s.tgt - 1) ≠ '/') := fun hc => hc.2 hslash
        simp only [Osv.Vfs.separator, if_neg hno]
        exact h
    | false =>
        -- the output ends with the last character of the last component
        obtain ⟨init, last, rfl⟩ : ∃ init last, acc = init ++ [last] :=
          ⟨acc.dropLast, acc.getLast hacc, (List.dropLast_append_getLast hacc).symm⟩
        obtain ⟨hlast, hslash⟩ := h.comps last (by simp)
        obtain ⟨front, c, rfl⟩ : ∃ front c, last = front ++ [c] :=
          ⟨last.dropLast, last.getLast hlast, (List.dropLast_append_getLast hlast).symm⟩
        have hc : s.full (s.tgt - 1) = c := h.full_eq (by
          rw [htgt, render_snoc]
          simp)
        have hcne : c ≠ '/' := fun hc' => hslash (by simp [hc'])
        have hput : 0 < s.len ∧ s.full (s.tgt - 1) ≠ '/' := ⟨by rw [h.len, htgt]; simp [render], by rw [hc]; exact hcne⟩
        simp only [Osv.Vfs.separator, if_pos hput]
        exact ⟨by rw [ConvState.written_put, h.written, render_append_slash hacc], by simp [h.len],
          h.comps⟩

/-- **`..` drops the last component**: the cursor backs up to the `/` in front of it, or stays
after the root's. -/
theorem ConvInv.dotDot {s : ConvState} {acc sep} (h : ConvInv s acc sep) (hacc : acc ≠ []) :
    ConvInv (Osv.Vfs.dotDot s) acc.dropLast false := by
  obtain ⟨init, last, rfl⟩ : ∃ init last, acc = init ++ [last] :=
    ⟨acc.dropLast, acc.getLast hacc, (List.dropLast_append_getLast hacc).symm⟩
  obtain ⟨hlast, hslash⟩ := h.comps last (by simp)
  obtain ⟨X, hX⟩ : ∃ X, X = if init = [] then [] else render init false := ⟨_, rfl⟩
  obtain ⟨T, hT⟩ : ∃ T : List Char, T = if sep then ['/'] else [] := ⟨_, rfl⟩
  have hw : s.written = X ++ '/' :: (last ++ T) := by rw [h.written, render_snoc, hX, hT]
  have hTlen : T.length ≤ 1 := by rw [hT]; split <;> simp
  have hlast1 : 1 ≤ last.length := List.length_pos_of_ne_nil hlast
  have htgt : s.tgt = X.length + 1 + last.length + T.length := by
    rw [← s.length_written, hw]
    simp only [List.length_append, List.length_cons]
    omega
  -- the `/` in front of the last component, and none inside it
  have hj : s.full X.length = '/' := ConvState.full_eq hw (by simp)
  have hnone : ∀ i, X.length < i → i ≤ s.tgt - 2 → s.full i ≠ '/' := by
    intro i hi hik
    obtain ⟨m, rfl⟩ : ∃ m, i = X.length + (m + 1) := ⟨i - X.length - 1, by omega⟩
    have hm : m < last.length := by omega
    have hget : (X ++ '/' :: (last ++ T))[X.length + (m + 1)]? = some last[m] := by
      rw [List.getElem?_append_right (Nat.le_add_right _ _), Nat.add_sub_cancel_left,
        List.getElem?_cons_succ, List.getElem?_append_left hm, List.getElem?_eq_getElem hm]
    rw [ConvState.full_eq hw hget]
    exact fun heq => hslash (heq ▸ List.getElem_mem hm)
  have hback : backUp s.full (s.tgt - 2) (s.len - 2) = (X.length, X.length) := by
    rw [backUp_spec s.full (s.len - 2) hj (by omega) hnone, h.len]
    refine Prod.ext rfl ?_
    simp only
    omega
  have hlen2 : 2 ≤ s.len := by rw [h.len]; omega
  simp only [Osv.Vfs.dotDot, if_pos hlen2, hback, List.dropLast_concat]
  have hcomps : ∀ c ∈ init, c ≠ [] ∧ '/' ∉ c := fun c hc => h.comps c (by simp [hc])
  rcases eq_or_ne init [] with rfl | hinit
  · -- back at the root: the cursor stays after its `/`
    have hX0 : X.length = 0 := by simp [hX]
    rw [if_pos hX0]
    refine ⟨?_, by simp [hX0], hcomps⟩
    rw [ConvState.written_of_le s _ (by omega), hw, hX0]
    simp [hX]
  · have hXlen : X.length ≠ 0 := by simp [hX, hinit, render]
    rw [if_neg hXlen]
    refine ⟨?_, rfl, hcomps⟩
    rw [ConvState.written_of_le s _ (by omega), hw, List.take_left, hX, if_neg hinit]

/-- **One component** takes the output to the normalisation step, provided a name to copy comes
after a `/`. -/
theorem ConvInv.component {s : ConvState} {acc sep} (h : ConvInv s acc sep) {name : List Char}
    (hname : '/' ∉ name)
    (hready : sep = true ∨ acc = [] ∨ name = [] ∨ name = ['.'] ∨ name = ['.', '.']) :
    ∃ sep', ConvInv (Osv.Vfs.component s name) (normStep acc name) sep' := by
  by_cases hdd : name = ['.', '.']
  · subst hdd
    simp only [Osv.Vfs.component, normStep, if_true]
    rcases eq_or_ne acc [] with rfl | hacc
    · -- `..` at the root: `len` is `1`, below `2`
      have hlen : ¬ 2 ≤ s.len := by
        rw [h.len, ← s.length_written, h.written]
        simp
      refine ⟨sep, ?_⟩
      simp only [Osv.Vfs.dotDot, if_neg hlen, List.dropLast_nil]
      exact h
    · exact ⟨false, h.dotDot hacc⟩
  by_cases hd : name = ['.']
  · subst hd
    exact ⟨sep, by simpa [Osv.Vfs.component, normStep] using h⟩
  by_cases hnil : name = []
  · subst hnil
    exact ⟨sep, by simpa [Osv.Vfs.component, normStep] using h⟩
  -- a name to copy
  have hsep : sep = true ∨ acc = [] := by
    rcases hready with h | h | h | h | h
    · exact .inl h
    · exact .inr h
    all_goals contradiction
  obtain ⟨hw, -, hl⟩ := ConvState.foldl_put s name
  refine ⟨false, ?_⟩
  simp only [Osv.Vfs.component, normStep, if_neg hdd, if_neg hd, hnil, false_or]
  refine ⟨by rw [hw, h.written, render_append_name hsep], ?_, ?_⟩
  · rw [hl, (ConvState.foldl_put s name).2.1, h.len]
  · intro c hc
    rcases List.mem_append.mp hc with hc | hc
    · exact h.comps c hc
    · obtain rfl := List.mem_singleton.mp hc
      exact ⟨hnil, hname⟩

/-- **The loop** takes the output to the normalisation of the components read. -/
theorem ConvInv.convLoop {names : List (List Char)} :
    ∀ {s : ConvState} {acc sep}, ConvInv s acc sep → (∀ n ∈ names, '/' ∉ n) →
      (sep = true ∨ acc = [] ∨ ∀ n ∈ names.head?, n = [] ∨ n = ['.'] ∨ n = ['.', '.']) →
      ∃ sep', ConvInv (Osv.Vfs.convLoop names s) (names.foldl normStep acc) sep' := by
  induction names with
  | nil => exact fun h _ _ => ⟨_, h⟩
  | cons name names ih =>
      intro s acc sep h hnames hready
      have hready' : sep = true ∨ acc = [] ∨ name = [] ∨ name = ['.'] ∨ name = ['.', '.'] := by
        rcases hready with h | h | h
        · exact .inl h
        · exact .inr (.inl h)
        · exact .inr (.inr (h name rfl))
      obtain ⟨sep', h'⟩ := h.component (hnames name List.mem_cons_self) hready'
      cases names with
      | nil => exact ⟨sep', h'⟩
      | cons n names =>
          -- after a separator every later name may be copied
          exact ih h'.separator (fun m hm => hnames m (List.mem_cons_of_mem _ hm)) (.inl rfl)

/-! ## `task_conv` -/

/-- The final `*tgt = '\0'` leaves the output before the cursor as it is. -/
theorem ConvState.written_terminate (s : ConvState) (c : Char) (peak : ℕ) :
    (⟨Function.update s.full s.tgt c, s.tgt, s.len, peak⟩ : ConvState).written = s.written := by
  simp only [written]
  refine List.map_congr_left fun i hi => Function.update_of_ne ?_ _ _
  exact Nat.ne_of_lt (List.mem_range.mp hi)

/-- `strlcpy` leaves `cwd` before the cursor. -/
theorem written_strlcpyCwd (full : ℕ → Char) (cwd : List Char) (peak : ℕ) :
    (⟨strlcpyCwd full cwd, cwd.length, cwd.length, peak⟩ : ConvState).written = cwd := by
  refine List.ext_getElem (by simp) fun i h₁ h₂ => ?_
  simp [ConvState.written, strlcpyCwd, h₂]

/-- A relative path starts the output with `cwd`. -/
theorem convStart_of_relative {cwd path : List Char} (full : ℕ → Char)
    (hrel : path.head? ≠ some '/') :
    convStart cwd path full =
      (if 1 < cwd.length ∧ path.head? ≠ some '.' then
        ConvState.put ⟨strlcpyCwd full cwd, cwd.length, cwd.length, cwd.length + 1⟩ '/'
      else ⟨strlcpyCwd full cwd, cwd.length, cwd.length, cwd.length + 1⟩, path) := by
  unfold convStart
  split
  · simp at hrel
  · rfl

/-- Empty components change nothing in the normalisation. -/
theorem foldl_filter_normStep (l : List (List Char)) (acc : List (List Char)) :
    (l.filter (· ≠ [])).foldl normStep acc = l.foldl normStep acc := by
  induction l generalizing acc with
  | nil => rfl
  | cons c l ih =>
      by_cases hc : c = []
      · subst hc
        rw [List.filter_cons_of_neg (by simp), ih, List.foldl_cons]
        simp [normStep]
      · rw [List.filter_cons_of_pos (by simpa using hc), List.foldl_cons, List.foldl_cons, ih]

/-- Plain components are kept as they are. -/
theorem foldl_normStep_plain {comps : List (List Char)} (h : ∀ c ∈ comps, Plain c)
    (acc : List (List Char)) : comps.foldl normStep acc = acc ++ comps := by
  induction comps generalizing acc with
  | nil => simp
  | cons c comps ih =>
      obtain ⟨hne, -, hdot, hdd⟩ := h c List.mem_cons_self
      rw [List.foldl_cons, ih (fun d hd => h d (List.mem_cons_of_mem _ hd))]
      simp [normStep, hne, hdot, hdd]

theorem components_append_slash (a b : List Char) :
    components (a ++ '/' :: b) = components a ++ components b := by
  simp [components, List.splitOn_append_cons_self, List.filter_append]

/-- The root is the only canonical path of one character. -/
theorem length_render_false {comps : List (List Char)} (h : ∀ c ∈ comps, c ≠ [])
    (hne : comps ≠ []) : 1 < (render comps false).length := by
  obtain ⟨c, cs, rfl⟩ := List.exists_cons_of_ne_nil hne
  obtain ⟨d, ds, rfl⟩ := List.exists_cons_of_ne_nil (h c List.mem_cons_self)
  simp [render]

/-- **What `task_conv` writes.**  From a canonical `cwd`, for a path that with `cwd` fits the
length check and is absolute, does not start with `.`, or starts with the component `.` or
`..`, `task_conv` succeeds, writes its `NUL` after the output, and the output is the path of the
normalised components. -/
theorem taskConv_spec {cwd path : List Char} (full : ℕ → Char) (hcwd : Canonical cwd)
    (hlen : cwd.length + path.length < PATH_MAX)
    (hdot : path.head? ≠ some '.' ∨ ∀ n ∈ (path.splitOn '/').head?, n = ['.'] ∨ n = ['.', '.']) :
    ∃ s sep, taskConv cwd path full = .ok s ∧ s.tgt < s.peak ∧
      s.written = render (normalize (components
        (if path.head? = some '/' then path else cwd ++ '/' :: path))) sep := by
  obtain ⟨comps, hplain, rfl⟩ := hcwd
  have hcomps : ∀ c ∈ comps, c ≠ [] ∧ '/' ∉ c := fun c hc => ⟨(hplain c hc).1, (hplain c hc).2.1⟩
  have htake : path.take (PATH_MAX - 1) = path := List.take_of_length_le (by omega)
  -- the invariant after the loop gives the result
  suffices hloop : ∃ sep, ConvInv (convLoop ((convStart (render comps false) path full).2.splitOn '/')
      (convStart (render comps false) path full).1) (normalize (components
        (if path.head? = some '/' then path else render comps false ++ '/' :: path))) sep by
    obtain ⟨sep, hinv⟩ := hloop
    obtain ⟨s, hs⟩ : ∃ s, s = convLoop ((convStart (render comps false) path full).2.splitOn '/')
        (convStart (render comps false) path full).1 := ⟨_, rfl⟩
    rw [← hs] at hinv
    refine ⟨⟨Function.update s.full s.tgt nul, s.tgt, s.len, max s.peak (s.tgt + 1)⟩, sep, ?_, ?_, ?_⟩
    · simp only [taskConv, htake, if_neg (show ¬ PATH_MAX ≤ path.length by omega),
        if_neg (show ¬ PATH_MAX ≤ (render comps false).length + path.length by omega), hs]
    · exact Nat.lt_of_lt_of_le (Nat.lt_succ_self _) (Nat.le_max_right _ _)
    · rw [ConvState.written_terminate, hinv.written]
  by_cases habs : path.head? = some '/'
  · -- an absolute path: the output starts at its `/`
    obtain ⟨src, rfl⟩ : ∃ src, path = '/' :: src := by
      cases path with
      | nil => simp at habs
      | cons c src =>
          obtain rfl : c = '/' := by simpa using habs
          exact ⟨src, rfl⟩
    have hstart : ConvInv (ConvState.put ⟨full, 0, 0, 0⟩ '/') [] false :=
      ⟨by rw [ConvState.written_put]; simp [ConvState.written], rfl, by simp⟩
    obtain ⟨sep, h⟩ := @ConvInv.convLoop (src.splitOn '/') _ _ _ hstart
      (fun n hn => not_mem_of_mem_splitOn hn) (.inr (.inl rfl))
    have hresult : normalize (components ('/' :: src)) = (src.splitOn '/').foldl normStep [] := by
      rw [normalize, components, foldl_filter_normStep, List.splitOn_cons_eq_if_modifyHead,
        if_pos (beq_self_eq_true '/'), List.foldl_cons]
      simp [normStep]
    rw [if_pos habs, hresult]
    exact ⟨sep, h⟩
  · -- a relative path: the output starts with `cwd`
    rw [convStart_of_relative full habs, if_neg habs]
    have hcwd : ConvInv ⟨strlcpyCwd full (render comps false), (render comps false).length,
        (render comps false).length, (render comps false).length + 1⟩ comps false :=
      ⟨written_strlcpyCwd _ _ _, rfl, hcomps⟩
    have hresult : normalize (components (render comps false ++ '/' :: path)) =
        (path.splitOn '/').foldl normStep comps := by
      rw [components_append_slash, components_render hcomps, normalize, List.foldl_append,
        foldl_normStep_plain hplain, List.nil_append, components, foldl_filter_normStep]
    rw [hresult]
    have hnames : ∀ n ∈ path.splitOn '/', '/' ∉ n := fun n hn => not_mem_of_mem_splitOn hn
    by_cases hsep : 1 < (render comps false).length ∧ path.head? ≠ some '.'
    · -- a `/` after `cwd`
      have hne : comps ≠ [] := by
        rintro rfl
        simp at hsep
      have hput : ConvInv (ConvState.put ⟨strlcpyCwd full (render comps false),
          (render comps false).length, (render comps false).length,
          (render comps false).length + 1⟩ '/') comps true :=
        ⟨by rw [ConvState.written_put, hcwd.written, render_append_slash hne],
          by rw [ConvState.put_len, ConvState.put_tgt, hcwd.len], hcomps⟩
      rw [if_pos hsep]
      exact hput.convLoop hnames (.inl rfl)
    · rw [if_neg hsep]
      refine hcwd.convLoop hnames ?_
      rcases Nat.lt_or_ge 1 (render comps false).length with hlong | hshort
      · -- `cpath` starts with `.`: its first component is `.` or `..`
        have hdot' := hdot.resolve_left fun h => hsep ⟨hlong, h⟩
        exact .inr (.inr fun n hn => .inr (hdot' n hn))
      · -- the root
        refine .inr (.inl ?_)
        by_contra hne
        have := length_render_false (fun c hc => (hcomps c hc).1) hne
        omega

/-- The components of a name with no `/`. -/
theorem components_name {name : List Char} (hne : name ≠ []) (hslash : '/' ∉ name) :
    components name = [name] := by
  simp [components, List.splitOn_eq_singleton hslash, hne]

/-- A plain name of `n + 1` characters after `/a` fills `n + 4` bytes before the `NUL`. -/
theorem taskConv_long_name (full : ℕ → Char) {n : ℕ} (hn : 2 ≤ n)
    (hlen : "/a".toList.length + (List.replicate (n + 1) 'b').length < PATH_MAX) :
    ∃ s, taskConv "/a".toList (List.replicate (n + 1) 'b') full = .ok s ∧ n + 4 < s.peak := by
  have hname : Plain (List.replicate (n + 1) 'b') := by
    refine ⟨by simp, by simp, fun h => ?_, fun h => ?_⟩
    · have := congrArg List.length h
      simp at this
      omega
    · have := congrArg List.length h
      simp at this
      omega
  have hcomps : normalize (components ("/a".toList ++ '/' :: List.replicate (n + 1) 'b')) =
      [['a']] ++ [List.replicate (n + 1) 'b'] := by
    rw [components_append_slash, components_name hname.1 hname.2.1,
      show components "/a".toList = [['a']] by decide, normalize,
      foldl_normStep_plain (by simpa using ⟨by decide, hname⟩)]
    rfl
  obtain ⟨s, sep, hs, hpeak, hw⟩ :=
    taskConv_spec full ⟨[['a']], by decide, by decide⟩ hlen (.inl (by simp [List.replicate_succ]))
  have htgt : n + 4 ≤ s.tgt := by
    rw [← s.length_written, hw, if_neg (by simp [List.replicate_succ]), hcomps, render_snoc]
    simp [render]
  exact ⟨s, hs, Nat.lt_of_le_of_lt htgt hpeak⟩

theorem task_conv_dot_name_and_overflow :
    (∃ s, taskConv "/home".toList ".profile".toList (fun _ => nul) = .ok s ∧
      s.written = "/home.profile".toList ∧
      components s.written ≠ normalize (components "/home/.profile".toList)) ∧
    ∃ cwd path, Canonical cwd ∧ cwd.length + path.length < PATH_MAX ∧
      ∀ full, ∃ s, taskConv cwd path full = .ok s ∧ PATH_MAX < s.peak := by
  -- `/a` and a name of `4093` characters: `PATH_MAX - 1` characters together
  obtain ⟨n, hn⟩ : ∃ n, n = 4092 := ⟨_, rfl⟩
  have hlen : "/a".toList.length + (List.replicate (n + 1) 'b').length < PATH_MAX := by
    simp only [List.length_replicate, PATH_MAX]
    rw [show "/a".toList.length = 2 by decide]
    omega
  refine ⟨⟨_, rfl, by decide, by decide⟩, "/a".toList, List.replicate (n + 1) 'b',
    ⟨[['a']], by decide, by decide⟩, hlen, fun full => ?_⟩
  obtain ⟨s, hs, hpeak⟩ := taskConv_long_name full (by omega) hlen
  exact ⟨s, hs, by rw [PATH_MAX]; omega⟩

end Osv.Vfs
