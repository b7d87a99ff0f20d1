import Mathlib.Logic.Function.Basic
import Osv.Lib.Transition

/-!
# The module index of an object and its TLS blocks

Every `elf::object` gets a module index from `program::register_dtv` in its constructor
(`core/elf.cc`): the first null slot of `_module_index_list`, or a new slot at the end.  Its
destructor calls `free_dtv`, which nulls the slot again.  `object::tls_addr()` asks the
calling thread for the block of that index (`thread::get_tls`, `core/sched.cc`) and, when
there is none, has `thread::setup_tls` allocate one of `_tls_init_size + _tls_uninit_size`
bytes, copy the template in and clear the rest.  `__tls_get_addr` reaches the object through
`program::tls_addr(module)`, which reads `_module_index_list[module]`.

**The model** (`TlsState`, `TlsOp`).  An object is its identity, with the module index its
constructor got and its TLS template.  The objects ever created are kept as a ghost, with
whether each is alive; a thread's `_tls` is a list of blocks, each with the object whose
`tls_addr` made it as a ghost.  Each step is a load that constructs an object, the drop of
the last reference to a live one, or a `tls_addr` or `__tls_get_addr` call of a thread.

**What holds** (`inv_reachable`).  The slot of each live object's index holds that object,
so distinct live objects have distinct module indices (`moduleIndex_ne`).  Every block a
thread holds at an index was made by an object that held that index, from its template
(`Inv.blocks`); so `tls_addr` of a live object returns its own block or one left by an
object that held the same index and is gone (`tlsAddr_owner`).

**What does not** (`tls_block_of_destroyed_object`).  Nothing clears a thread's blocks when
an object goes away, and `register_dtv` hands the freed index to the next object.  That
object's `tls_addr` then finds the old block, made from the old object's template and smaller
than its own segment.
-/

namespace Osv.Core

open Transition Function

/-- What `setup_tls` copies an object's block from: `_tls_segment`, `_tls_init_size` and
`_tls_uninit_size`. -/
structure TlsTemplate where
  segment : ℕ
  initSize : ℕ
  uninitSize : ℕ
  deriving DecidableEq, Repr

/-- The bytes of a block made from the template. -/
def TlsTemplate.size (tmpl : TlsTemplate) : ℕ := tmpl.initSize + tmpl.uninitSize

/-- A block `setup_tls` allocated, with the object whose `tls_addr` asked for it. -/
structure TlsBlock where
  owner : ℕ
  template : TlsTemplate
  deriving DecidableEq, Repr

/-- `_module_index` and the template of an object. -/
structure ObjectTls where
  moduleIndex : ℕ
  template : TlsTemplate
  deriving DecidableEq, Repr

/-! ## The slots and the blocks -/

/-- `program::register_dtv(obj)`: the list, and the index of the slot taken. -/
def registerDtv (l : List (Option ℕ)) (obj : ℕ) : List (Option ℕ) × ℕ :=
  if l.idxOf none < l.length then (l.set (l.idxOf none) (some obj), l.idxOf none)
  else (l ++ [some obj], l.length)

/-- `program::free_dtv(obj)`; none where its assertion fails. -/
def freeDtv (l : List (Option ℕ)) (obj : ℕ) : Option (List (Option ℕ)) :=
  if l.idxOf (some obj) < l.length then some (l.set (l.idxOf (some obj)) none) else none

/-- `thread::get_tls(module)`. -/
def getTls (tls : List (Option TlsBlock)) (module : ℕ) : Option TlsBlock :=
  if tls.length ≤ module then none else tls.getD module none

/-- `thread::setup_tls(module, ...)`: `_tls` grown to `module + 1` slots, and the new block
put at `module`. -/
def setupTls (tls : List (Option TlsBlock)) (module : ℕ) (b : TlsBlock) :
    List (Option TlsBlock) :=
  (tls ++ List.replicate (module + 1 - tls.length) none).set module (some b)

/-- The state: `_module_index_list`, the objects ever created and which are alive, the next
identity, and each thread's `_tls`. -/
structure TlsState where
  moduleIndexList : List (Option ℕ)
  objects : ℕ → Option ObjectTls
  alive : ℕ → Bool
  nextId : ℕ
  tls : ℕ → List (Option TlsBlock)

/-- A step of the program or of a thread. -/
inductive TlsOp where
  /-- a load constructs an object with this template -/
  | create (tmpl : TlsTemplate)
  /-- the last reference to the object is dropped -/
  | destroy (o : ℕ)
  /-- thread `t` calls `tls_addr()` of the object `o` -/
  | tlsAddr (t o : ℕ)
  /-- thread `t` calls `__tls_get_addr` for `module` -/
  | tlsGetAddr (t module : ℕ)
  deriving DecidableEq, Repr

namespace TlsState

/-- No object and no block. -/
def init : TlsState := ⟨[], fun _ => none, fun _ => false, 0, fun _ => []⟩

/-- `object::object`: a new object, with the index `register_dtv` gives it. -/
def create (s : TlsState) (tmpl : TlsTemplate) : TlsState :=
  { s with
    moduleIndexList := (registerDtv s.moduleIndexList s.nextId).1
    objects := update s.objects s.nextId
      (some ⟨(registerDtv s.moduleIndexList s.nextId).2, tmpl⟩)
    alive := update s.alive s.nextId true
    nextId := s.nextId + 1 }

/-- `object::~object`: `free_dtv`; none where its assertion fails. -/
def destroy (s : TlsState) (o : ℕ) : Option TlsState :=
  (freeDtv s.moduleIndexList o).map fun l =>
    { s with moduleIndexList := l, alive := update s.alive o false }

/-- `object::tls_addr()` of the object `o` on thread `t`: the block, and the state. -/
def tlsAddr (s : TlsState) (t o : ℕ) (obj : ObjectTls) : TlsBlock × TlsState :=
  match getTls (s.tls t) obj.moduleIndex with
  | some b => (b, s)
  | none =>
      (⟨o, obj.template⟩,
        { s with tls := update s.tls t (setupTls (s.tls t) obj.moduleIndex ⟨o, obj.template⟩) })

/-- `program::tls_addr(module)` on thread `t`; none where the slot is null or out of range. -/
def programTlsAddr (s : TlsState) (t module : ℕ) : Option (TlsBlock × TlsState) :=
  match s.moduleIndexList[module]? with
  | some (some o) => (s.objects o).map (s.tlsAddr t o)
  | _ => none

/-- One step; none for a step that cannot happen (a drop of an object that is not alive, a
call on one) or that aborts. -/
def step (s : TlsState) : TlsOp → Option TlsState
  | .create tmpl => some (s.create tmpl)
  | .destroy o => if s.alive o then s.destroy o else none
  | .tlsAddr t o => if s.alive o then (s.objects o).map fun obj => (s.tlsAddr t o obj).2 else none
  | .tlsGetAddr t module => (s.programTlsAddr t module).map Prod.snd

end TlsState

/-- Every sequence of loads, drops and TLS accesses from no object. -/
def tlsSystem : System TlsState TlsOp := System.ofFun (· = TlsState.init) TlsState.step

/-! ## What each function does to a slot -/

theorem registerDtv_getElem? (l : List (Option ℕ)) (obj j : ℕ) :
    (registerDtv l obj).1[j]? =
      if j = (registerDtv l obj).2 then some (some obj) else l[j]? := by
  unfold registerDtv
  split_ifs with hlt hj hj
  · subst hj
    simp [hlt]
  · simp [Ne.symm hj]
  · subst hj
    simp
  · rw [List.getElem?_append]
    split_ifs with hjl
    · rfl
    · rw [List.getElem?_eq_none (by simp; omega), List.getElem?_eq_none (by omega)]

/-- The slot `register_dtv` takes held no object. -/
theorem registerDtv_slot_free (l : List (Option ℕ)) (obj o : ℕ) :
    l[(registerDtv l obj).2]? ≠ some (some o) := by
  unfold registerDtv
  split_ifs with hlt
  · rw [List.getElem?_eq_getElem hlt, List.getElem_idxOf hlt]
    simp
  · simp

theorem freeDtv_getElem? {l l' : List (Option ℕ)} {obj : ℕ} (h : freeDtv l obj = some l')
    (j : ℕ) : l'[j]? = if j = l.idxOf (some obj) then some none else l[j]? := by
  unfold freeDtv at h
  split_ifs at h with hlt
  cases h
  rw [List.getElem?_set]
  by_cases hj : j = l.idxOf (some obj)
  · subst hj
    simp [hlt]
  · rw [if_neg (Ne.symm hj), if_neg hj]

/-- The slot `free_dtv` nulls is the one that held the object. -/
theorem getElem?_idxOf {l : List (Option ℕ)} {obj : ℕ} (h : some obj ∈ l) :
    l[l.idxOf (some obj)]? = some (some obj) := by
  have hlt := List.idxOf_lt_length_iff.mpr h
  rw [List.getElem?_eq_getElem hlt, List.getElem_idxOf hlt]

theorem getTls_eq (tls : List (Option TlsBlock)) (i : ℕ) : getTls tls i = tls[i]?.join := by
  unfold getTls
  split_ifs with h
  · rw [List.getElem?_eq_none h]
    rfl
  · rw [List.getD_eq_getElem?_getD, List.getElem?_eq_getElem (by omega)]
    rfl

theorem getTls_setupTls (tls : List (Option TlsBlock)) (m : ℕ) (b : TlsBlock) (i : ℕ) :
    getTls (setupTls tls m b) i = if i = m then some b else getTls tls i := by
  rw [getTls_eq, getTls_eq, setupTls, List.getElem?_set]
  by_cases hi : i = m
  · subst hi
    rw [if_pos rfl, if_pos (by simp; omega), if_pos rfl]
    rfl
  rw [if_neg (Ne.symm hi), if_neg hi, List.getElem?_append]
  -- past the end of `_tls`, the new slots are null as the old ones were absent
  split_ifs with hlt
  · rfl
  · rw [List.getElem?_eq_none (l := tls) (by omega), List.getElem?_replicate]
    split_ifs <;> rfl

/-! ## The invariant -/

namespace TlsState

variable {s : TlsState}

/-- What every reachable state satisfies. -/
structure Inv (s : TlsState) : Prop where
  /-- nothing exists at or past the next identity -/
  fresh : ∀ o, s.nextId ≤ o → s.objects o = none ∧ s.alive o = false
  /-- a live object was created -/
  created : ∀ o, s.alive o = true → ∃ obj, s.objects o = some obj
  /-- the slot of a live object's index holds it -/
  slot : ∀ o obj, s.alive o = true → s.objects o = some obj →
    s.moduleIndexList[obj.moduleIndex]? = some (some o)
  /-- a slot holds a live object whose index it is -/
  held : ∀ i o, s.moduleIndexList[i]? = some (some o) →
    s.alive o = true ∧ ∃ obj, s.objects o = some obj ∧ obj.moduleIndex = i
  /-- a thread's block at an index was made by an object that held the index, from its
  template -/
  blocks : ∀ t i b, getTls (s.tls t) i = some b → s.objects b.owner = some ⟨i, b.template⟩

theorem inv_init : init.Inv where
  fresh _ _ := ⟨rfl, rfl⟩
  created _ h := by simp [init] at h
  slot _ _ h := by simp [init] at h
  held _ _ h := by simp [init] at h
  blocks _ _ _ h := by simp [init, getTls] at h

/-- An object that exists is below the next identity. -/
theorem Inv.ne_nextId (hs : s.Inv) {o : ℕ} {obj : ObjectTls} (h : s.objects o = some obj) :
    o ≠ s.nextId := by
  rintro rfl
  simp [(hs.fresh _ (Nat.le_refl _)).1] at h

theorem Inv.create (hs : s.Inv) (tmpl : TlsTemplate) : (s.create tmpl).Inv where
  fresh o ho := by
    have hne : o ≠ s.nextId := by simp [TlsState.create] at ho; omega
    simpa [TlsState.create, hne] using hs.fresh o (by simp [TlsState.create] at ho; omega)
  created o ho := by
    by_cases hn : o = s.nextId
    · exact ⟨⟨(registerDtv s.moduleIndexList s.nextId).2, tmpl⟩,
        by simp [TlsState.create, hn]⟩
    · simpa [TlsState.create, hn] using hs.created o (by simpa [TlsState.create, hn] using ho)
  slot o obj ho hobj := by
    simp only [TlsState.create, registerDtv_getElem?] at ho hobj ⊢
    by_cases hn : o = s.nextId
    · subst hn
      simp only [update_self, Option.some.injEq] at hobj
      simp [← hobj]
    · rw [update_of_ne hn] at ho hobj
      have hslot := hs.slot o obj ho hobj
      -- the slot taken was free, so it is not this object's
      have hj : obj.moduleIndex ≠ (registerDtv s.moduleIndexList s.nextId).2 := by
        intro hj
        exact registerDtv_slot_free s.moduleIndexList s.nextId o (hj ▸ hslot)
      simp [hj, hslot]
  held i o h := by
    simp only [TlsState.create, registerDtv_getElem?] at h ⊢
    split_ifs at h with hi
    · cases h
      simp [hi]
    · obtain ⟨halive, obj, hobj, hidx⟩ := hs.held i o h
      have hne := hs.ne_nextId hobj
      simp [hne, halive, hobj, hidx]
  blocks t i b h := by
    have hb := hs.blocks t i b h
    simp [TlsState.create, hs.ne_nextId hb, hb]

theorem Inv.destroy (hs : s.Inv) {o : ℕ} {s' : TlsState} (ho : s.alive o = true)
    (h : s.destroy o = some s') : s'.Inv := by
  obtain ⟨l, hfree, rfl⟩ := Option.map_eq_some_iff.mp h
  obtain ⟨obj, hobj⟩ := hs.created o ho
  have hslot := hs.slot o obj ho hobj
  have hat := getElem?_idxOf (List.mem_of_getElem? hslot)
  -- the slot `free_dtv` nulls is the one of this object's index
  have hidx : s.moduleIndexList.idxOf (some o) = obj.moduleIndex := by
    obtain ⟨-, obj', hobj', hidx'⟩ := hs.held _ o hat
    rw [hobj, Option.some.injEq] at hobj'
    rw [← hidx', hobj']
  refine ⟨fun o' ho' => ?_, fun o' ho' => ?_, fun o' obj' ho' hobj' => ?_, fun i o' h => ?_,
    fun t i b h => hs.blocks t i b h⟩
  · by_cases h' : o' = o
    · subst h'
      simp [(hs.fresh _ ho').1]
    · simpa [h'] using hs.fresh o' ho'
  · have h' : o' ≠ o := by rintro rfl; simp at ho'
    exact hs.created o' (by simpa [h'] using ho')
  · have h' : o' ≠ o := by rintro rfl; simp at ho'
    simp only [ne_eq, h', not_false_eq_true, update_of_ne] at ho'
    have hslot' := hs.slot o' obj' ho' hobj'
    rw [freeDtv_getElem? hfree, if_neg, hslot']
    intro hj
    rw [hj, hat] at hslot'
    exact h' (Option.some.inj (Option.some.inj hslot')).symm
  · rw [freeDtv_getElem? hfree] at h
    split_ifs at h with hi
    · simp at h
    obtain ⟨halive, obj', hobj', hidx'⟩ := hs.held i o' h
    have h' : o' ≠ o := by
      rintro rfl
      rw [hobj, Option.some.injEq] at hobj'
      exact hi (by rw [hidx, ← hidx', hobj'])
    exact ⟨by simp [h', halive], obj', hobj', hidx'⟩

theorem Inv.tlsAddr (hs : s.Inv) (t : ℕ) {o : ℕ} {obj : ObjectTls}
    (hobj : s.objects o = some obj) :
    (s.tlsAddr t o obj).2.Inv := by
  unfold TlsState.tlsAddr
  split
  · exact hs
  · refine ⟨hs.fresh, hs.created, hs.slot, hs.held, fun t' i b h => ?_⟩
    by_cases ht : t' = t
    · subst ht
      simp only [update_self, getTls_setupTls] at h
      split_ifs at h with hi
      · cases h
        rw [hi, hobj]
      · exact hs.blocks t' i b h
    · exact hs.blocks t' i b (by simpa [ht] using h)

theorem Inv.step (hs : s.Inv) {op : TlsOp} {s' : TlsState} (h : s.step op = some s') : s'.Inv := by
  cases op with
  | create tmpl =>
      cases h
      exact hs.create tmpl
  | destroy o =>
      simp only [TlsState.step] at h
      split_ifs at h with ho
      exact hs.destroy ho h
  | tlsAddr t o =>
      simp only [TlsState.step] at h
      split_ifs at h with ho
      obtain ⟨obj, hobj, rfl⟩ := Option.map_eq_some_iff.mp h
      exact hs.tlsAddr t hobj
  | tlsGetAddr t module =>
      simp only [TlsState.step, programTlsAddr] at h
      split at h
      · obtain ⟨r, hr, rfl⟩ := Option.map_eq_some_iff.mp h
        obtain ⟨obj, hobj, rfl⟩ := Option.map_eq_some_iff.mp hr
        exact hs.tlsAddr t hobj
      · cases h

/-- **The invariant holds in every reachable state.** -/
theorem inv_reachable (hs : Reachable tlsSystem s) : s.Inv :=
  Inductive.reachable ⟨fun _ h => h ▸ inv_init, fun _ _ _ h hstep => h.step hstep⟩ hs

/-- **Distinct live objects have distinct module indices.** -/
theorem moduleIndex_ne (hs : Reachable tlsSystem s) {o o' : ℕ} {obj obj' : ObjectTls}
    (ho : s.alive o = true) (ho' : s.alive o' = true) (hobj : s.objects o = some obj)
    (hobj' : s.objects o' = some obj') (hne : o ≠ o') : obj.moduleIndex ≠ obj'.moduleIndex := by
  have hinv := inv_reachable hs
  intro hidx
  have h₁ := hinv.slot o obj ho hobj
  rw [hidx, hinv.slot o' obj' ho' hobj'] at h₁
  exact hne (Option.some.inj (Option.some.inj h₁)).symm

/-- **What tls_addr returns.**  A live object gets its own block, made from its template, or a
block that an object which held the same index and is gone left behind. -/
theorem tlsAddr_owner (hs : Reachable tlsSystem s) (t : ℕ) {o : ℕ} {obj : ObjectTls}
    (ho : s.alive o = true) (hobj : s.objects o = some obj) :
    (s.tlsAddr t o obj).1 = ⟨o, obj.template⟩ ∨
      (s.alive (s.tlsAddr t o obj).1.owner = false ∧
        s.objects (s.tlsAddr t o obj).1.owner =
          some ⟨obj.moduleIndex, (s.tlsAddr t o obj).1.template⟩) := by
  have hinv := inv_reachable hs
  unfold TlsState.tlsAddr
  split
  · rename_i b hb
    have howner := hinv.blocks t _ b hb
    cases halive : s.alive b.owner
    · exact .inr ⟨rfl, howner⟩
    · -- a live owner of the slot is the object itself
      have h₁ := hinv.slot b.owner _ halive howner
      rw [hinv.slot o obj ho hobj, Option.some.injEq, Option.some.injEq] at h₁
      subst h₁
      rw [hobj, Option.some.injEq] at howner
      exact .inl (by rw [howner])
  · exact .inl rfl

/-- Objects `0` and `1` loaded, thread `0` touching the TLS of object `0`, object `0` dropped,
and object `2` loaded, which takes index `0` again. -/
def recycledRun : List TlsOp :=
  [.create ⟨0x1000, 8, 0⟩, .create ⟨0x2000, 16, 16⟩, .tlsAddr 0 0, .destroy 0, .create ⟨0x3000, 4, 4⟩]

def recycled : TlsState := (runFrom step init recycledRun).getD init

theorem recycled_reachable : Reachable tlsSystem recycled :=
  reachable_of_runFrom (.init rfl) (show runFrom step init recycledRun = some recycled from rfl)

/-- The live objects `1` and `2` have the indices `1` and `0`. -/
theorem moduleIndex_ne_recycled :
    recycled.alive 1 = true ∧ recycled.alive 2 = true ∧ recycled.alive 0 = false ∧
      recycled.objects 1 = some ⟨1, ⟨0x2000, 16, 16⟩⟩ ∧ recycled.objects 2 = some ⟨0, ⟨0x3000, 4, 4⟩⟩ ∧
      (⟨1, ⟨0x2000, 16, 16⟩⟩ : ObjectTls).moduleIndex ≠ (⟨0, ⟨0x3000, 4, 4⟩⟩ : ObjectTls).moduleIndex :=
  ⟨by decide, by decide, by decide, by decide, by decide,
    @moduleIndex_ne recycled recycled_reachable 1 2 _ _ (by decide) (by decide) (by decide)
      (by decide) (by decide)⟩

/-- Thread `0` asking object `2` for its block gets the one object `0` left at index `0`, made
from object `0`'s template. -/
theorem tlsAddr_owner_recycled :
    recycled.alive 2 = true ∧ recycled.objects 2 = some ⟨0, ⟨0x3000, 4, 4⟩⟩ ∧
      (recycled.tlsAddr 0 2 ⟨0, ⟨0x3000, 4, 4⟩⟩).1 = ⟨0, ⟨0x1000, 8, 0⟩⟩ ∧
      ((recycled.tlsAddr 0 2 ⟨0, ⟨0x3000, 4, 4⟩⟩).1 = ⟨2, ⟨0x3000, 4, 4⟩⟩ ∨
        (recycled.alive (recycled.tlsAddr 0 2 ⟨0, ⟨0x3000, 4, 4⟩⟩).1.owner = false ∧
          recycled.objects (recycled.tlsAddr 0 2 ⟨0, ⟨0x3000, 4, 4⟩⟩).1.owner =
            some ⟨0, (recycled.tlsAddr 0 2 ⟨0, ⟨0x3000, 4, 4⟩⟩).1.template⟩)) :=
  ⟨by decide, by decide, by decide,
    @tlsAddr_owner recycled recycled_reachable 0 2 ⟨0, ⟨0x3000, 4, 4⟩⟩ (by decide) (by decide)⟩

end TlsState

/-! ## A recycled index -/

/-- An object of 8 bytes of TLS data, and one of 16 bytes of data and 16 of zeros. -/
def smallTemplate : TlsTemplate := ⟨0x1000, 8, 0⟩
def largeTemplate : TlsTemplate := ⟨0x2000, 16, 16⟩

/-- Thread 0 touches the TLS of the first object, the object goes away, and a second is
loaded, which takes index 0 again. -/
def reuseRun : List TlsOp :=
  [.create smallTemplate, .tlsAddr 0 0, .destroy 0, .create largeTemplate]

theorem tls_block_of_destroyed_object :
    ∃ s o obj, Reachable tlsSystem s ∧ s.alive o = true ∧ s.objects o = some obj ∧
      (s.tlsAddr 0 o obj).1.owner ≠ o ∧
      (s.tlsAddr 0 o obj).1.template.size < obj.template.size :=
  ⟨_, 1, ⟨0, largeTemplate⟩,
    reachable_of_runFrom (.init rfl)
      (show runFrom TlsState.step TlsState.init reuseRun = some _ from rfl),
    rfl, rfl, by decide, by decide⟩

end Osv.Core
