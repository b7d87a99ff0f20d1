import Osv.Lib.OptionLoop

/-!
# Loading shared libraries: program::get_library

`program::get_library(name, extra_path)` (`core/elf.cc`) finds the file for a library name:
a bare name along `extra_path` and then `_search_path`, the first `dir/name` that opens after
`realpath`; a path made absolute against the working directory and canonicalised.  A name
already in `_files` gives back the object there.  Otherwise it makes an `elf::file`, puts it
in `_modules`, and calls `load_needed`, which calls `get_library` for each `DT_NEEDED` entry,
along the object's `DT_RPATH` with `$ORIGIN` replaced by its directory, and keeps each object
found in `_needed`.  Then it relocates the object, runs its init functions, and only then
registers it in `_files` under its path and its soname.

**The model.**  The files the loader can open, `realpath` and `getcwd` are an environment
(`LoaderEnv`); a file is what the loader reads of it, its soname and its `DT_NEEDED` and
`DT_RPATH` entries.  The program's state is `_files`, `_modules`, `_search_path`, the objects
made, each one's `_needed`, and the order the init functions ran in.  `getLibrary` recurses
through `load_needed` on fuel: `none` is running out of it.  Segments, relocation and the
debugger list are not modelled, nor `remove_object` (every object stays alive).

**What holds.**  Every call that returns keeps `Loader.Inv`: each object's init functions run
once, after those of every object in its `_needed`, a name in `_files` stands for an object
whose init functions ran, and every object the call made has run them (`getLibrary_inv`).
Where a rank on paths falls along every `DT_NEEDED` entry, fuel above the rank of the library
is enough for the call to return (`getLibrary_returns`); the example at the end loads a
diamond, one object per path.

**What does not hold** (`get_library_cycle_never_returns`).  Because an object is registered
only after its dependencies are loaded, two libraries that need each other are loaded over and
over: for every amount of fuel, `get_library` of either runs out (`getLibrary_cycle`).
-/

namespace Osv.Core

/-! ## Names -/

/-- `dirname(path)`: everything before the last `/`, or `/` without one. -/
def dirname (path : String) : String :=
  match (path.toList.reverse.dropWhile (· ≠ '/')) with
  | [] => "/"
  | _ :: rest => String.ofList rest.reverse

/-- `boost::replace_all(s, "$ORIGIN", origin)`, on characters. -/
def replaceOrigin (origin : List Char) : List Char → List Char
  | [] => []
  | '$' :: 'O' :: 'R' :: 'I' :: 'G' :: 'I' :: 'N' :: rest => origin ++ replaceOrigin origin rest
  | c :: rest => c :: replaceOrigin origin rest

/-- `boost::split(v, s, boost::is_any_of(":"))`, on characters. -/
def splitColon : List Char → List (List Char)
  | [] => [[]]
  | ':' :: rest => [] :: splitColon rest
  | c :: rest =>
      match splitColon rest with
      | [] => [[c]]
      | w :: ws => (c :: w) :: ws

/-! ## The loader -/

/-- What the loader reads of an ELF shared object: `DT_SONAME`, the `DT_NEEDED` entries, and
`DT_RPATH` if it has one. -/
structure ElfInfo where
  soname : String
  needed : List String
  rpath : Option String
  deriving DecidableEq, Repr

/-- The files `fileref_from_fname` opens, `realpath(3)`, and the working directory. -/
structure LoaderEnv where
  file : String → Option ElfInfo
  realpath : String → Option String
  cwd : String

/-- The state of `program` that `get_library` reads and writes: `_files`, `_modules` (the
kernel last), `_search_path`, the `elf::file` objects made, by number, with their path and
contents, each one's `_needed`, and the objects whose init functions ran, in order. -/
structure Loader where
  files : String → Option ℕ
  modules : List ℕ
  searchPath : List String
  objects : List (String × ElfInfo)
  needed : ℕ → List ℕ
  inits : List ℕ

variable (env : LoaderEnv)

/-- `canonicalize(p)`: `realpath(p)`, or `p` when it does not resolve. -/
def canonicalize (p : String) : String := (env.realpath p).getD p

/-- The search of `get_library` for a bare name: the first `dir/name` that opens. -/
def searchLibrary (name : String) : List String → Option String
  | [] => none
  | dir :: dirs =>
      if (env.file (canonicalize env (dir ++ "/" ++ name))).isSome then
        some (canonicalize env (dir ++ "/" ++ name))
      else searchLibrary name dirs

/-- The name `get_library` goes on with, and the file it opened there. -/
def resolve (s : Loader) (name : String) (extra : List String) : String × Option ElfInfo :=
  if '/' ∉ name.toList then
    match searchLibrary env name (extra ++ s.searchPath) with
    | some dname => (dname, env.file dname)
    | none => (name, none)
  else
    let name := canonicalize env (if name.toList.head? ≠ some '/' then env.cwd ++ "/" ++ name else name)
    (name, env.file name)

/-- The `DT_RPATH` directories of an object at `path`, as `load_needed` passes them. -/
def rpathOf (path : String) (info : ElfInfo) : List String :=
  match info.rpath with
  | none => []
  | some r => (splitColon (replaceOrigin (dirname path).toList r.toList)).map String.ofList

/-- `_files[name] = obj`. -/
def Loader.register (s : Loader) (name : String) (o : ℕ) : Loader :=
  { s with files := fun n => if n = name then some o else s.files n }

/-- A loader with nothing loaded yet, searching `sp`. -/
def Loader.empty (sp : List String) : Loader :=
  ⟨fun _ => none, [], sp, [], fun _ => [], []⟩

/-- A new `elf::file` for `path`, with an empty `_needed`, inserted in `_modules` before the
kernel. -/
def Loader.create (s : Loader) (path : String) (info : ElfInfo) : Loader :=
  { s with
    objects := s.objects ++ [(path, info)]
    modules := s.modules.dropLast ++ [s.objects.length] ++ s.modules.getLast?.toList
    needed := fun i => if i = s.objects.length then [] else s.needed i }

/-- `run_init_funcs()` of object `o`. -/
def Loader.runInit (s : Loader) (o : ℕ) : Loader := { s with inits := s.inits ++ [o] }

/-- `_needed.push_back(obj)` on object `o`, for an object found. -/
def Loader.addNeeded (s : Loader) (o : ℕ) : Option ℕ → Loader
  | some d => { s with needed := fun i => if i = o then s.needed o ++ [d] else s.needed i }
  | none => s

/-- `object::load_needed()` of object `o`: `get` of each `DT_NEEDED` entry in turn, along the
object's `DT_RPATH`, each object found kept in `_needed`. -/
def loadNeeded (get : Loader → String → List String → Option (Loader × Option ℕ))
    (rpath : List String) (o : ℕ) (libs : List String) (s : Loader) : Option Loader :=
  libs.foldlM (fun s lib => (get s lib rpath).map fun r => r.1.addNeeded o r.2) s

/-- `program::get_library(name, extra_path)` with fuel for its recursion through
`load_needed`: the state after it and the object it returns, or `none` when the fuel runs
out. -/
def getLibrary : ℕ → Loader → String → List String → Option (Loader × Option ℕ)
  | 0, _, _, _ => none
  | fuel + 1, s, name, extra =>
      match s.files (resolve env s name extra).1 with
      | some o => some (s, some o)
      | none =>
          match (resolve env s name extra).2 with
          | none => some (s, none)
          | some info =>
              let path := (resolve env s name extra).1
              let o := s.objects.length
              match loadNeeded (getLibrary fuel) (rpathOf path info) o info.needed
                  (s.create path info) with
              | none => none
              | some s =>
                  -- `run_init_funcs`, then `_files[name]` and `_files[soname]`
                  some (((s.runInit o).register path o).register info.soname o, some o)

/-- One call of `get_library`, its path and object number written out. -/
theorem getLibrary_succ (fuel : ℕ) (s : Loader) (name : String) (extra : List String) :
    getLibrary env (fuel + 1) s name extra =
      match s.files (resolve env s name extra).1 with
      | some o => some (s, some o)
      | none =>
          match (resolve env s name extra).2 with
          | none => some (s, none)
          | some info =>
              match loadNeeded (getLibrary env fuel) (rpathOf (resolve env s name extra).1 info)
                  s.objects.length info.needed (s.create (resolve env s name extra).1 info) with
              | none => none
              | some s₁ =>
                  some (((s₁.runInit s.objects.length).register (resolve env s name extra).1
                    s.objects.length).register info.soname s.objects.length, some s.objects.length) :=
  rfl

theorem resolve_file {s : Loader} {name : String} {extra : List String} {path : String}
    {info : ElfInfo} (h : resolve env s name extra = (path, some info)) :
    env.file path = some info := by
  by_cases hb : '/' ∈ name.toList
  · simp only [resolve, hb, not_true_eq_false, if_false, Prod.mk.injEq] at h
    obtain ⟨rfl, h⟩ := h
    exact h
  · -- a bare name: the file opened along the search path
    simp only [resolve, hb, not_false_eq_true, if_true] at h
    split at h <;> simp only [Prod.mk.injEq, reduceCtorEq, and_false] at h
    obtain ⟨rfl, h⟩ := h
    exact h

/-! ## What every call keeps -/

namespace Loader

variable (s : Loader) (n p : String) (o i : ℕ) (info : ElfInfo)

@[simp] theorem files_create : (s.create p info).files = s.files := rfl
@[simp] theorem inits_create : (s.create p info).inits = s.inits := rfl
@[simp] theorem searchPath_create : (s.create p info).searchPath = s.searchPath := rfl
@[simp] theorem length_objects_create :
    (s.create p info).objects.length = s.objects.length + 1 := by simp [create]
theorem needed_create :
    (s.create p info).needed i = if i = s.objects.length then [] else s.needed i := rfl

@[simp] theorem files_runInit : (s.runInit o).files = s.files := rfl
@[simp] theorem inits_runInit : (s.runInit o).inits = s.inits ++ [o] := rfl
@[simp] theorem objects_runInit : (s.runInit o).objects = s.objects := rfl
@[simp] theorem needed_runInit : (s.runInit o).needed = s.needed := rfl
@[simp] theorem searchPath_runInit : (s.runInit o).searchPath = s.searchPath := rfl

@[simp] theorem inits_register : (s.register n o).inits = s.inits := rfl
@[simp] theorem objects_register : (s.register n o).objects = s.objects := rfl
@[simp] theorem needed_register : (s.register n o).needed = s.needed := rfl
@[simp] theorem searchPath_register : (s.register n o).searchPath = s.searchPath := rfl
theorem files_register (m : String) :
    (s.register n o).files m = if m = n then some o else s.files m := rfl

@[simp] theorem files_addNeeded (r : Option ℕ) : (s.addNeeded o r).files = s.files := by
  cases r <;> rfl
@[simp] theorem inits_addNeeded (r : Option ℕ) : (s.addNeeded o r).inits = s.inits := by
  cases r <;> rfl
@[simp] theorem objects_addNeeded (r : Option ℕ) : (s.addNeeded o r).objects = s.objects := by
  cases r <;> rfl
@[simp] theorem searchPath_addNeeded (r : Option ℕ) :
    (s.addNeeded o r).searchPath = s.searchPath := by
  cases r <;> rfl
theorem needed_addNeeded (d : ℕ) :
    (s.addNeeded o (some d)).needed i = if i = o then s.needed o ++ [d] else s.needed i := rfl

/-- What `get_library` keeps between calls: each object's init functions ran at most once, and
only for an object made; a name in `_files` and an entry of any `_needed` stand for objects
whose init functions ran; and an object's init functions ran after those of every object in
its `_needed`. -/
structure Inv (s : Loader) : Prop where
  nodup : s.inits.Nodup
  lt : ∀ o ∈ s.inits, o < s.objects.length
  files_init : ∀ n o, s.files n = some o → o ∈ s.inits
  needed_init : ∀ o d, d ∈ s.needed o → d ∈ s.inits
  after_needed : ∀ pre o post, s.inits = pre ++ o :: post → ∀ d ∈ s.needed o, d ∈ pre

variable {s}

theorem Inv.create (hs : s.Inv) : (s.create p info).Inv where
  nodup := hs.nodup
  lt o ho := by simpa using Nat.lt_succ_of_lt (hs.lt o ho)
  files_init := hs.files_init
  needed_init o d hd := by
    rw [needed_create] at hd
    split_ifs at hd
    · simp at hd
    · exact hs.needed_init o d hd
  after_needed pre o post h d hd := by
    -- an object whose init functions ran is not the one made
    have ho : o < s.objects.length := hs.lt o (by simp_all)
    rw [needed_create, if_neg (Nat.ne_of_lt ho)] at hd
    exact hs.after_needed pre o post h d hd

/-- Recording a dependency of an object still loading, found among the objects whose init
functions ran. -/
theorem Inv.addNeeded (hs : s.Inv) {o : ℕ} (ho : o ∉ s.inits) {r : Option ℕ}
    (hr : ∀ d, r = some d → d ∈ s.inits) : (s.addNeeded o r).Inv := by
  cases r with
  | none => exact hs
  | some d =>
      refine ⟨hs.nodup, hs.lt, hs.files_init, fun i e he => ?_, fun pre i post h e he => ?_⟩
      · rw [needed_addNeeded] at he
        split_ifs at he
        · rcases List.mem_append.mp he with he | he
          · exact hs.needed_init o e he
          · exact List.mem_singleton.mp he ▸ hr d rfl
        · exact hs.needed_init i e he
      · have hi : i ≠ o := by
          rintro rfl
          exact ho (by simp_all)
        rw [needed_addNeeded, if_neg hi] at he
        exact hs.after_needed pre i post h e he

/-- Running the init functions of an object made whose init functions had not run, once every
object in its `_needed` has run them. -/
theorem Inv.runInit (hs : s.Inv) (hlt : o < s.objects.length) (ho : o ∉ s.inits) :
    (s.runInit o).Inv where
  nodup := List.nodup_append.mpr ⟨hs.nodup, by simp, by
    intro a ha b hb
    rw [List.mem_singleton.mp hb]
    rintro rfl
    exact ho ha⟩
  lt i hi := by
    rcases List.mem_append.mp hi with hi | hi
    · exact hs.lt i hi
    · exact List.mem_singleton.mp hi ▸ hlt
  files_init n i h := List.mem_append_left _ (hs.files_init n i h)
  needed_init i d h := List.mem_append_left _ (hs.needed_init i d h)
  after_needed pre i post h d hd := by
    rw [inits_runInit] at h
    -- either `o` is the object at `pre`, or the position was there before
    rcases List.eq_nil_or_concat post with rfl | ⟨post, z, rfl⟩
    · obtain ⟨rfl, hio⟩ := List.append_inj' h rfl
      exact hs.needed_init i d hd
    · rw [List.concat_eq_append, ← List.cons_append, ← List.append_assoc] at h
      exact hs.after_needed pre i post (List.append_inj' h rfl).1 d hd

theorem Inv.register (hs : s.Inv) {o : ℕ} (ho : o ∈ s.inits) : (s.register n o).Inv where
  nodup := hs.nodup
  lt := hs.lt
  files_init m i h := by
    rw [files_register] at h
    split_ifs at h
    · cases h
      exact ho
    · exact hs.files_init m i h
  needed_init := hs.needed_init
  after_needed := hs.after_needed

/-- How a call of `get_library` changes the state: objects are only added, the init functions
that run are those of objects made in the call, each of which has run them when it returns,
and `_search_path` stays. -/
structure Grows (s s' : Loader) : Prop where
  length_le : s.objects.length ≤ s'.objects.length
  inits_eq : ∃ new, s'.inits = s.inits ++ new ∧ ∀ o ∈ new, s.objects.length ≤ o
  made_init : ∀ o, s.objects.length ≤ o → o < s'.objects.length → o ∈ s'.inits
  searchPath_eq : s'.searchPath = s.searchPath

variable {o} {s' s'' : Loader}

theorem Grows.refl (s : Loader) : s.Grows s where
  length_le := Nat.le_refl _
  inits_eq := ⟨[], by simp, by simp⟩
  made_init _ h h' := absurd h' (Nat.not_lt.mpr h)
  searchPath_eq := rfl

theorem Grows.inits_subset (h : s.Grows s') : s.inits ⊆ s'.inits := by
  obtain ⟨new, e, -⟩ := h.inits_eq
  rw [e]
  exact List.subset_append_left _ _

/-- An object made before the call whose init functions had not run still has not run
them. -/
theorem Grows.not_mem (h : s.Grows s') (hlt : o < s.objects.length) (ho : o ∉ s.inits) :
    o ∉ s'.inits := by
  obtain ⟨new, e, hnew⟩ := h.inits_eq
  rw [e, List.mem_append, not_or]
  exact ⟨ho, fun hn => absurd (hnew o hn) (Nat.not_le.mpr hlt)⟩

theorem Grows.trans (h₁ : s.Grows s') (h₂ : s'.Grows s'') : s.Grows s'' where
  length_le := Nat.le_trans h₁.length_le h₂.length_le
  inits_eq := by
    obtain ⟨n₁, e₁, b₁⟩ := h₁.inits_eq
    obtain ⟨n₂, e₂, b₂⟩ := h₂.inits_eq
    refine ⟨n₁ ++ n₂, by rw [e₂, e₁, List.append_assoc], fun o ho => ?_⟩
    rcases List.mem_append.mp ho with ho | ho
    · exact b₁ o ho
    · exact Nat.le_trans h₁.length_le (b₂ o ho)
  made_init o hle hlt := by
    by_cases h' : o < s'.objects.length
    · exact h₂.inits_subset (h₁.made_init o hle h')
    · exact h₂.made_init o (Nat.not_lt.mp h') hlt
  searchPath_eq := h₂.searchPath_eq.trans h₁.searchPath_eq

theorem Grows.addNeeded (h : s.Grows s') (r : Option ℕ) : s.Grows (s'.addNeeded o r) := by
  obtain ⟨hle, hinits, hmade, hsp⟩ := h
  exact ⟨by simpa using hle, by simpa using hinits, by simpa using hmade, by simpa using hsp⟩

/-- A call that made object `s.objects.length`, loaded its dependencies, ran its init
functions and registered it. -/
theorem Grows.load (h : (s.create p info).Grows s') (a b : String) :
    s.Grows (((s'.runInit s.objects.length).register a s.objects.length).register b
      s.objects.length) where
  length_le := by
    have := h.length_le
    simp only [length_objects_create] at this
    simp only [objects_register, objects_runInit]
    omega
  inits_eq := by
    obtain ⟨new, e, hnew⟩ := h.inits_eq
    refine ⟨new ++ [s.objects.length], by simp [e], fun o ho => ?_⟩
    rcases List.mem_append.mp ho with ho | ho
    · have := hnew o ho
      simp only [length_objects_create] at this
      omega
    · exact Nat.le_of_eq (List.mem_singleton.mp ho).symm
  made_init o hle hlt := by
    simp only [inits_register, inits_runInit, objects_register, objects_runInit] at hlt ⊢
    rcases Nat.eq_or_lt_of_le hle with rfl | hlt'
    · exact List.mem_append_right _ (List.mem_singleton_self _)
    · exact List.mem_append_left _ (h.made_init o (by simp only [length_objects_create]; omega) hlt)
  searchPath_eq := by simpa using h.searchPath_eq

end Loader

open Loader

/-- The loop of `load_needed` keeps the invariant, for an object made whose init functions
have not run, when each call it makes does. -/
theorem loadNeeded_inv {get : Loader → String → List String → Option (Loader × Option ℕ)}
    (hget : ∀ {s s' : Loader} {name : String} {extra : List String} {r : Option ℕ}, s.Inv →
      get s name extra = some (s', r) → s'.Inv ∧ s.Grows s' ∧ ∀ d, r = some d → d ∈ s'.inits)
    {rpath : List String} {o : ℕ} {libs : List String} {s s' : Loader} (hs : s.Inv)
    (hlt : o < s.objects.length) (ho : o ∉ s.inits) (h : loadNeeded get rpath o libs s = some s') :
    s'.Inv ∧ s.Grows s' := by
  refine OptionLoop.foldlM_inv (fun t => t.Inv ∧ s.Grows t) ?_ ⟨hs, Grows.refl s⟩ h
  rintro lib - t t' ⟨ht, hg⟩ hstep
  obtain ⟨⟨t₁, r⟩, hr, rfl⟩ := Option.map_eq_some_iff.mp hstep
  obtain ⟨hi₁, hg₁, hres⟩ := hget ht hr
  have hg' := hg.trans hg₁
  exact ⟨hi₁.addNeeded (hg'.not_mem hlt ho) hres, hg'.addNeeded r⟩

/-- **Every call keeps the invariant.**  When `get_library` returns, the objects it made have
each run their init functions once, after those of every object in their `_needed`, and what
it returns has run them too. -/
theorem getLibrary_inv : ∀ (fuel : ℕ) {s s' : Loader} {name : String} {extra : List String}
    {r : Option ℕ}, s.Inv → getLibrary env fuel s name extra = some (s', r) →
      s'.Inv ∧ s.Grows s' ∧ ∀ o, r = some o → o ∈ s'.inits
  | 0, _, _, _, _, _, _, h => by cases h
  | fuel + 1, s, s', name, extra, r, hs, h => by
      rw [getLibrary_succ] at h
      cases hf : s.files (resolve env s name extra).1 with
      | some o =>
          -- already in `_files`: nothing is made
          rw [hf] at h
          cases h
          exact ⟨hs, Grows.refl s, fun d hd => hs.files_init _ d (Option.some.inj hd ▸ hf)⟩
      | none =>
          rw [hf] at h
          cases hr : (resolve env s name extra).2 with
          | none =>
              rw [hr] at h
              cases h
              exact ⟨hs, Grows.refl s, by simp⟩
          | some info =>
              simp only [hr] at h
              cases hl : loadNeeded (getLibrary env fuel) (rpathOf (resolve env s name extra).1 info)
                  s.objects.length info.needed (s.create (resolve env s name extra).1 info) with
              | none => simp only [hl, reduceCtorEq] at h
              | some s₁ =>
                  simp only [hl, Option.some.injEq, Prod.mk.injEq] at h
                  obtain ⟨rfl, rfl⟩ := h
                  have hX : s.objects.length ∉ s.inits := fun hm => Nat.lt_irrefl _ (hs.lt _ hm)
                  obtain ⟨hi₁, hg₁⟩ := loadNeeded_inv (getLibrary_inv fuel) (hs.create _ info)
                    (by simp) hX hl
                  have hX₁ := hg₁.length_le
                  simp only [length_objects_create] at hX₁
                  have hinit := hi₁.runInit _ hX₁ (hg₁.not_mem (by simp) hX)
                  have hmem : s.objects.length ∈ (s₁.runInit s.objects.length).inits := by simp
                  refine ⟨(hinit.register _ hmem).register _ (by simp),
                    hg₁.load _ _ _ _, ?_⟩
                  rintro o ⟨⟩
                  simp

/-- **Without a cycle, get_library returns.**  Where a rank on paths falls along every
`DT_NEEDED` entry as `load_needed` resolves it, fuel above the rank of the path a name resolves
to is enough, from every state with that search path. -/
theorem getLibrary_returns (sp : List String) (rank : String → ℕ)
    (hrank : ∀ s : Loader, s.searchPath = sp → ∀ P info, env.file P = some info →
      ∀ lib ∈ info.needed, ∀ Q info', resolve env s lib (rpathOf P info) = (Q, some info') →
        rank Q < rank P) :
    ∀ (fuel : ℕ) (s : Loader) (name : String) (extra : List String), s.searchPath = sp →
      0 < fuel → (∀ Q info, resolve env s name extra = (Q, some info) → rank Q + 1 < fuel) →
      ∃ s' r, getLibrary env fuel s name extra = some (s', r) ∧ s'.searchPath = sp
  | fuel + 1, s, name, extra, hs, _, hbound => by
      rw [getLibrary_succ]
      cases hf : s.files (resolve env s name extra).1 with
      | some o => exact ⟨s, some o, rfl, hs⟩
      | none =>
          cases hr : (resolve env s name extra).2 with
          | none => exact ⟨s, none, rfl, hs⟩
          | some info =>
              have hP := hbound _ info (Prod.ext rfl hr)
              -- each dependency resolves to a path of lower rank, so `fuel` is enough for it
              have hstep : ∀ lib ∈ info.needed, ∀ t : Loader, t.searchPath = sp →
                  ∃ t', (getLibrary env fuel t lib (rpathOf (resolve env s name extra).1 info)).map
                    (fun r => r.1.addNeeded s.objects.length r.2) = some t' ∧ t'.searchPath = sp := by
                intro lib hlib t ht
                obtain ⟨t', r, h, hsp⟩ := getLibrary_returns sp rank hrank fuel t lib _ ht (by omega)
                  fun Q info' hQ =>
                    have := hrank t ht _ info (resolve_file env (Prod.ext rfl hr)) lib hlib Q info' hQ
                    by omega
                exact ⟨t'.addNeeded s.objects.length r, by rw [h]; rfl, by simpa using hsp⟩
              obtain ⟨s₁, hl, hsp₁⟩ := OptionLoop.foldlM_some (fun t => t.searchPath = sp) hstep
                (s := s.create (resolve env s name extra).1 info) hs
              simp only [loadNeeded] at hl ⊢
              rw [hl]
              exact ⟨_, _, rfl, by simpa using hsp₁⟩

/-! ## Libraries that need each other -/

/-- `libA.so` needs `libB.so`, and `libB.so` needs `libA.so`; both are in `/lib`. -/
def cyclicEnv : LoaderEnv where
  file p :=
    if p = "/lib/libA.so" then some ⟨"libA.so", ["libB.so"], none⟩
    else if p = "/lib/libB.so" then some ⟨"libB.so", ["libA.so"], none⟩
    else none
  realpath p := some p
  cwd := "/"

theorem cyclicEnv_file (p : String) :
    cyclicEnv.file p =
      if p = "/lib/libA.so" then some ⟨"libA.so", ["libB.so"], none⟩
      else if p = "/lib/libB.so" then some ⟨"libB.so", ["libA.so"], none⟩
      else none := rfl

theorem cyclicEnv_realpath (p : String) : cyclicEnv.realpath p = some p := rfl

theorem resolve_cyclic_a {s : Loader} (hs : s.searchPath = ["/lib"]) :
    resolve cyclicEnv s "libA.so" [] = ("/lib/libA.so", some ⟨"libA.so", ["libB.so"], none⟩) := by
  simp [resolve, hs, searchLibrary, canonicalize, cyclicEnv_file, cyclicEnv_realpath]

theorem resolve_cyclic_b {s : Loader} (hs : s.searchPath = ["/lib"]) :
    resolve cyclicEnv s "libB.so" [] = ("/lib/libB.so", some ⟨"libB.so", ["libA.so"], none⟩) := by
  simp [resolve, hs, searchLibrary, canonicalize, cyclicEnv_file, cyclicEnv_realpath]

/-- **Neither library of the cycle is ever loaded.**  Loading one makes its object and loads
the other before registering anything, which makes its object and loads the first again: from
every state where neither is registered, every amount of fuel runs out. -/
theorem getLibrary_cycle :
    ∀ (fuel : ℕ) (s : Loader), s.searchPath = ["/lib"] → s.files "/lib/libA.so" = none →
      s.files "/lib/libB.so" = none →
      getLibrary cyclicEnv fuel s "libA.so" [] = none ∧
        getLibrary cyclicEnv fuel s "libB.so" [] = none := by
  intro fuel
  induction fuel with
  | zero => intro s _ _ _; exact ⟨rfl, rfl⟩
  | succ fuel ih =>
      intro s hs ha hb
      -- making an object changes neither `_files` nor `_search_path`
      have hcreate : ∀ p info, (s.create p info).searchPath = ["/lib"] ∧
          (s.create p info).files "/lib/libA.so" = none ∧
          (s.create p info).files "/lib/libB.so" = none := fun _ _ => ⟨hs, ha, hb⟩
      obtain ⟨hsa, haa, hba⟩ := hcreate "/lib/libA.so" ⟨"libA.so", ["libB.so"], none⟩
      obtain ⟨hsb, hab, hbb⟩ := hcreate "/lib/libB.so" ⟨"libB.so", ["libA.so"], none⟩
      constructor
      · rw [getLibrary_succ, resolve_cyclic_a hs]
        simp only [ha, loadNeeded, List.foldlM_cons, List.foldlM_nil, rpathOf, (ih _ hsa haa hba).2,
          Option.map_none]
        rfl
      · rw [getLibrary_succ, resolve_cyclic_b hs]
        simp only [hb, loadNeeded, List.foldlM_cons, List.foldlM_nil, rpathOf, (ih _ hsb hab hbb).1,
          Option.map_none]
        rfl

/-- **get_library does not return on a cycle.**  From a loader with nothing loaded, searching
`/lib`, `get_library("libA.so")` runs out of every amount of fuel. -/
theorem get_library_cycle_never_returns :
    ∀ fuel, getLibrary cyclicEnv fuel (Loader.empty ["/lib"]) "libA.so" [] = none :=
  fun fuel => (getLibrary_cycle fuel _ rfl rfl rfl).1

/-- `libA.so` needs `libB.so` and `libC.so`, and both need `libD.so`. -/
def diamondEnv : LoaderEnv where
  file p :=
    if p = "/lib/libA.so" then some ⟨"libA.so", ["libB.so", "libC.so"], none⟩
    else if p = "/lib/libB.so" then some ⟨"libB.so", ["libD.so"], none⟩
    else if p = "/lib/libC.so" then some ⟨"libC.so", ["libD.so"], none⟩
    else if p = "/lib/libD.so" then some ⟨"libD.so", [], none⟩
    else none
  realpath p := some p
  cwd := "/"

-- a diamond makes four objects, and `libD.so`'s init functions run first and once
example : (getLibrary diamondEnv 4 (Loader.empty ["/lib"]) "libA.so" []).map
    (fun r => (r.1.inits, r.1.objects.length, r.2)) = some ([2, 1, 3, 0], 4, some 0) := by
  decide

end Osv.Core
