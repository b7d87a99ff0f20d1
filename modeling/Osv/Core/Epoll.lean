import Mathlib.Data.List.AList
import Osv.Core.Poll
import Osv.Vfs.Descrip

/-!
# epoll: the registration maps and the files' back-pointers

An `epoll_obj` (`core/epoll.cc`) keeps an `unordered_map<file*, epoll_event>` of the files
registered with it, and each registered file keeps in `f_epolls` a vector of the epoll files it
is registered with.  `add` inserts into the map and pushes the epoll file onto the vector, `del`
erases from the map and, through `remove_me`, from the vector, `mod` changes the event.
`epoll_ctl` looks up both descriptors with `fileref_from_fd` and hands the second file, null
when the descriptor is not open, straight to `add`, `mod` or `del`.  When a file's last
reference goes, `file::~file` (`fs/vfs/kern_descrip.cc`) runs `fo_close`, which for an epoll
file deletes the `epoll_obj` (its destructor calls `remove_me` for every key), and then calls
`epoll_file_closed` for every epoll file in `f_epolls`, which `del`s the dying file there.

**The model.**  The state holds what each descriptor refers to, the map of each epoll file, and
each file's `f_epolls`, a null vector being empty; a map is Mathlib's `AList`, in its
iteration order.  `epoll_ctl`, creating and opening files, closing descriptors and destroying
files are the steps of `epollSystem`; a step that faults or fails an `assert` has no successor.
The loop of `file::~file` erases from the vector it is walking, which the C++ standard leaves
undefined; the model runs it as libstdc++ does: the range-for fixes its end when it starts,
and `erase` moves the later elements down one slot and leaves the old last one past the new
end (`vecErase`, `closedLoop`).  `epoll_wait`, a `do_poll` over the map's files, is not
modelled.

**What holds** (`inv_reachable_of_few`).  In every reachable state in which no file has been
destroyed while registered with three or more epolls, `E` occurs in `F`'s `f_epolls` exactly
once when `F` is a key of `E`'s map, and not at all otherwise.

**What does not.**  `epoll_ctl` with a descriptor that is not open does not fail with `EBADF`
(`epoll_ctl_closed_fd`): `mod` and `del` of the null file report `ENOENT`, and `add` of it
dereferences null.  And a file destroyed while registered with three epolls stays a key of the
second one's map (`destroy_three_epolls`): the first `del` moves the second epoll file into
the slot the loop has just read.
-/

namespace Osv.Core

open Transition Osv.Vfs

/-- `EPOLL_CTL_ADD` -/
def EPOLL_CTL_ADD : ℤ := 1
/-- `EPOLL_CTL_DEL` -/
def EPOLL_CTL_DEL : ℤ := 2
/-- `EPOLL_CTL_MOD` -/
def EPOLL_CTL_MOD : ℤ := 3

/-- A `struct epoll_event`: the mask and the caller's `epoll_data`. -/
structure EpollEvent where
  events : UInt32
  data : UInt64
  deriving DecidableEq, Repr

/-- The `unordered_map<file*, epoll_event>` of an `epoll_obj`, in its iteration order. -/
abbrev EpollMap (φ : Type*) := AList fun _ : φ => EpollEvent

/-- The state epoll works on: the file behind each descriptor, as `fileref_from_fd` finds it,
the `epoll_obj` of each epoll file, and each file's `f_epolls`. -/
structure EpollState (φ : Type*) where
  fds : ℤ → Option φ
  obj : φ → Option (EpollMap φ)
  epolls : φ → List φ

variable {φ : Type*} [DecidableEq φ]

/-! ## `add`, `mod`, `del` and `epoll_ctl` -/

/-- `remove_me(fp)` of the epoll file `ep`: the first `ep` of `fp->f_epolls` goes; `none` is the
failed `assert`. -/
def removeMe (epolls : φ → List φ) (ep fp : φ) : Option (φ → List φ) :=
  if ep ∈ epolls fp then some (Function.update epolls fp ((epolls fp).erase ep)) else none

/-- `epoll_obj::add(fp, event)` of the epoll file `ep` with the map `m`: the error and the
state; `none` for the null file, whose `f_lock` is dereferenced after the `emplace`. -/
def EpollState.add (s : EpollState φ) (ep : φ) (m : EpollMap φ) (fp : Option φ)
    (event : EpollEvent) : Option (ℕ × EpollState φ) :=
  match fp with
  | none => none
  | some f =>
      if f ∈ m then some (EEXIST, s)
      else some (0, { s with obj := Function.update s.obj ep (some (m.insert f event)),
                              epolls := Function.update s.epolls f (s.epolls f ++ [ep]) })

/-- `epoll_obj::mod(fp, event)`: `map.at` throws for a file that is not a key, the null one
included. -/
def EpollState.mod (s : EpollState φ) (ep : φ) (m : EpollMap φ) (fp : Option φ)
    (event : EpollEvent) : ℕ × EpollState φ :=
  match fp with
  | some f =>
      if f ∈ m then (0, { s with obj := Function.update s.obj ep (some (m.replace f event)) })
      else (ENOENT, s)
  | none => (ENOENT, s)

/-- `epoll_obj::del(fp)`: `map.erase` finds no null key. -/
def EpollState.del (s : EpollState φ) (ep : φ) (m : EpollMap φ) (fp : Option φ) :
    Option (ℕ × EpollState φ) :=
  match fp with
  | some f =>
      if f ∈ m then
        (removeMe s.epolls ep f).map fun epolls =>
          (0, { s with obj := Function.update s.obj ep (some (m.erase f)), epolls })
      else some (ENOENT, s)
  | none => some (ENOENT, s)

/-- `epoll_ctl(epfd, op, fd, event)`: `.ok` for `0`, the errno of `-1`; `none` when it faults. -/
def epollCtl (s : EpollState φ) (epfd op fd : ℤ) (event : EpollEvent) :
    Option (Except ℕ Unit × EpollState φ) :=
  match s.fds epfd with
  | none => some (.error EBADF, s)
  | some ep =>
      match s.obj ep with
      | none => some (.error EINVAL, s)
      | some m =>
          let fp := s.fds fd
          let r : Option (ℕ × EpollState φ) :=
            if op = EPOLL_CTL_ADD then s.add ep m fp event
            else if op = EPOLL_CTL_MOD then some (s.mod ep m fp event)
            else if op = EPOLL_CTL_DEL then s.del ep m fp
            else some (EINVAL, s)
          r.map fun (error, s) => (if error ≠ 0 then .error error else .ok (), s)

/-! ## `file::~file` -/

/-- `~epoll_obj()` of the epoll file `ep`: `remove_me` for each key, in the map's order. -/
def removeAll (ep : φ) : List φ → (φ → List φ) → Option (φ → List φ)
  | [], epolls => some epolls
  | f :: fs, epolls => (removeMe epolls ep f).bind (removeAll ep fs)

/-- `v.erase(v.begin() + j)` on a vector of `size` elements held in the buffer `buf`, as
libstdc++ runs it: the elements after `j` move down one slot and the slot past the new end
keeps its old value. -/
def vecErase (buf : List φ) (size j : ℕ) : List φ :=
  buf.take j ++ (buf.drop (j + 1)).take (size - (j + 1)) ++ buf.drop (size - 1)

/-- What the loop of `file::~file` over `*f_epolls` works on: the epoll objects, and the
vector's buffer and size. -/
structure ClosedLoop (φ : Type*) where
  obj : φ → Option (EpollMap φ)
  buf : List φ
  size : ℕ

/-- `epoll_file_closed(ep, F)` inside the loop: `del(F)` of `ep`'s object, whose `remove_me`
erases `ep` from the vector the loop walks.  A null object faults. -/
def ClosedLoop.closed (st : ClosedLoop φ) (F ep : φ) : Option (ClosedLoop φ) :=
  match st.obj ep with
  | none => none
  | some m =>
      if F ∈ m then
        let j := (st.buf.take st.size).idxOf ep
        if j < st.size then
          some ⟨Function.update st.obj ep (some (m.erase F)), vecErase st.buf st.size j,
            st.size - 1⟩
        else none
      else some st

/-- `for (auto ep : *f_epolls) epoll_file_closed(ep, F)`: `k` passes are left, and the next one
reads slot `i` of the buffer. -/
def closedLoop (F : φ) : ℕ → ℕ → ClosedLoop φ → Option (ClosedLoop φ)
  | 0, _, st => some st
  | k + 1, i, st =>
      match st.buf[i]? with
      | none => none
      | some ep => (st.closed F ep).bind (closedLoop F k (i + 1))

/-- `fo_close(F)` as far as epoll sees it: an epoll file's `epoll_obj` is deleted, and its
destructor calls `remove_me` for every key. -/
def EpollState.foClose (s : EpollState φ) (F : φ) : Option (φ → List φ) :=
  match s.obj F with
  | none => some s.epolls
  | some m => removeAll F m.keys s.epolls

/-- `file::~file()` of `F`: `fo_close`, which also sets an epoll file's `f_data` to null, then the
loop over `f_epolls`; the vector goes with the file. -/
def EpollState.destroy (s : EpollState φ) (F : φ) : Option (EpollState φ) := do
  let epolls ← s.foClose F
  let n := (epolls F).length
  let st ← closedLoop F n 0 ⟨Function.update s.obj F none, epolls F, n⟩
  some ⟨s.fds, st.obj, Function.update epolls F []⟩

/-! ## The system -/

/-- The steps: `epoll_ctl`; `epoll_create1` and the opening of another file, which install a
file no descriptor refers to at a free descriptor; `close` of a descriptor; and the drop of a
file's last reference. -/
inductive EpollCall (φ : Type*) where
  | ctl (epfd op fd : ℤ) (event : EpollEvent)
  | create (fd : ℤ) (f : φ)
  | openFile (fd : ℤ) (f : φ)
  | close (fd : ℤ)
  | destroy (f : φ)

/-- A file that no descriptor refers to, that has no `epoll_obj` and is in no map. -/
def EpollState.Fresh (s : EpollState φ) (f : φ) : Prop :=
  (∀ fd, s.fds fd ≠ some f) ∧ s.obj f = none ∧ s.epolls f = []

/-- The descriptors `fds`, the epoll files among their files with empty maps, and no
registration. -/
def EpollState.init (fds : ℤ → Option φ) (isEpoll : φ → Bool) : EpollState φ :=
  ⟨fds, fun f => if isEpoll f then some ∅ else none, fun _ => []⟩

/-- epoll and the descriptors it reads. -/
def epollSystem (fds : ℤ → Option φ) (isEpoll : φ → Bool) :
    System (EpollState φ) (EpollCall φ) where
  init s := s = .init fds isEpoll
  step s l t :=
    match l with
    | .ctl epfd op fd event => ∃ r, epollCtl s epfd op fd event = some (r, t)
    | .create fd f => s.fds fd = none ∧ s.Fresh f ∧
        t = { s with fds := Function.update s.fds fd (some f),
                     obj := Function.update s.obj f (some ∅) }
    | .openFile fd f => s.fds fd = none ∧ s.Fresh f ∧
        t = { s with fds := Function.update s.fds fd (some f) }
    | .close fd => t = { s with fds := Function.update s.fds fd none }
    | .destroy f => (∀ fd, s.fds fd ≠ some f) ∧ s.destroy f = some t

/-! ## The registration invariant -/

/-- Whether `F` is a key of the map of the epoll file `E`. -/
def keyOf (obj : φ → Option (EpollMap φ)) (E F : φ) : Bool :=
  match obj E with
  | some m => decide (F ∈ m)
  | none => false

/-- **The registration invariant**: `E` occurs in `F`'s `f_epolls` once when `F` is a key of
`E`'s map, and not at all otherwise. -/
def RegInv (obj : φ → Option (EpollMap φ)) (epolls : φ → List φ) : Prop :=
  ∀ E F, (epolls F).count E = if keyOf obj E F then 1 else 0

/-- The invariant of a state. -/
def EpollState.Inv (s : EpollState φ) : Prop := RegInv s.obj s.epolls

theorem keyOf_update (obj : φ → Option (EpollMap φ)) (ep : φ) (m : Option (EpollMap φ))
    (E F : φ) :
    keyOf (Function.update obj ep m) E F = if E = ep then keyOf (fun _ => m) E F
      else keyOf obj E F := by
  by_cases hE : E = ep
  · subst hE
    simp [keyOf]
  · simp [keyOf, hE]

theorem keyOf_of_obj {obj : φ → Option (EpollMap φ)} {E : φ} {m : EpollMap φ}
    (h : obj E = some m) (F : φ) : keyOf obj E F = decide (F ∈ m) := by
  simp [keyOf, h]

/-- A registered pair is found on both sides. -/
theorem RegInv.mem_iff {obj : φ → Option (EpollMap φ)} {epolls : φ → List φ}
    (hinv : RegInv obj epolls) (E F : φ) : E ∈ epolls F ↔ keyOf obj E F = true := by
  rw [← List.count_pos_iff, hinv E F]
  cases keyOf obj E F <;> simp

/-- Changing the maps of epoll files without changing their keys keeps the invariant. -/
theorem RegInv.of_keyOf {obj obj' : φ → Option (EpollMap φ)} {epolls : φ → List φ}
    (hinv : RegInv obj epolls) (hkey : ∀ E F, keyOf obj' E F = keyOf obj E F) :
    RegInv obj' epolls := by
  intro E F
  rw [hkey]
  exact hinv E F

/-- `add` of a new key: one more occurrence on each side. -/
theorem RegInv.add {obj : φ → Option (EpollMap φ)} {epolls : φ → List φ}
    (hinv : RegInv obj epolls) {ep f : φ} {m : EpollMap φ} (hm : obj ep = some m) (hf : f ∉ m)
    (event : EpollEvent) :
    RegInv (Function.update obj ep (some (m.insert f event)))
      (Function.update epolls f (epolls f ++ [ep])) := by
  intro E F
  have hold := hinv E F
  rw [keyOf_update]
  by_cases hF : F = f
  · subst hF
    rw [Function.update_self, List.count_append]
    by_cases hE : E = ep
    · subst hE
      rw [keyOf_of_obj hm] at hold
      simp [keyOf, hf] at hold ⊢
      exact hold
    · simp [hE, hold, Ne.symm hE]
  · rw [Function.update_of_ne hF]
    by_cases hE : E = ep
    · subst hE
      rw [keyOf_of_obj hm] at hold
      simp [keyOf, hF, hold]
    · simp [hE, hold]

/-- `del` of a key: `remove_me` finds the epoll file, and one occurrence goes on each side. -/
theorem RegInv.del {obj : φ → Option (EpollMap φ)} {epolls : φ → List φ}
    (hinv : RegInv obj epolls) {ep f : φ} {m : EpollMap φ} (hm : obj ep = some m) (hf : f ∈ m) :
    removeMe epolls ep f = some (Function.update epolls f ((epolls f).erase ep)) ∧
      RegInv (Function.update obj ep (some (m.erase f)))
        (Function.update epolls f ((epolls f).erase ep)) := by
  have hmem : ep ∈ epolls f := by
    rw [hinv.mem_iff, keyOf_of_obj hm]
    exact decide_eq_true hf
  refine ⟨if_pos hmem, fun E F => ?_⟩
  have hold := hinv E F
  rw [keyOf_update]
  by_cases hF : F = f
  · subst hF
    rw [Function.update_self]
    by_cases hE : E = ep
    · subst hE
      rw [keyOf_of_obj hm] at hold
      simp [keyOf, List.count_erase_self, hold, hf]
    · simp [hE, List.count_erase_of_ne hE, hold]
  · rw [Function.update_of_ne hF]
    by_cases hE : E = ep
    · subst hE
      rw [keyOf_of_obj hm] at hold
      simp [keyOf, hF, hold]
    · simp [hE, hold]

/-! ## `epoll_ctl` keeps the invariant -/

namespace EpollState

variable {s t : EpollState φ} {ep : φ} {m : EpollMap φ} {fp : Option φ} {event : EpollEvent}
  {e : ℕ}

theorem inv_add (hinv : s.Inv) (hm : s.obj ep = some m) (h : s.add ep m fp event = some (e, t)) :
    t.Inv := by
  cases fp with
  | none => simp [EpollState.add] at h
  | some f =>
      simp only [EpollState.add] at h
      split_ifs at h with hf
      · cases h
        exact hinv
      · cases h
        exact RegInv.add hinv hm hf event

theorem inv_mod (hinv : s.Inv) (hm : s.obj ep = some m) : (s.mod ep m fp event).2.Inv := by
  cases fp with
  | none => exact hinv
  | some f =>
      simp only [EpollState.mod]
      split_ifs with hf
      · -- `replace` keeps the keys
        refine RegInv.of_keyOf hinv fun E F => ?_
        rw [keyOf_update]
        by_cases hE : E = ep
        · subst hE
          simp [keyOf, hm]
        · simp [hE]
      · exact hinv

theorem inv_del (hinv : s.Inv) (hm : s.obj ep = some m) (h : s.del ep m fp = some (e, t)) :
    t.Inv := by
  cases fp with
  | none =>
      simp only [EpollState.del, Option.some.injEq, Prod.mk.injEq] at h
      rw [← h.2]
      exact hinv
  | some f =>
      simp only [EpollState.del] at h
      split_ifs at h with hf
      · obtain ⟨hrm, hreg⟩ := RegInv.del hinv hm hf
        rw [hrm, Option.map_some, Option.some.injEq, Prod.mk.injEq] at h
        rw [← h.2]
        exact hreg
      · simp only [Option.some.injEq, Prod.mk.injEq] at h
        rw [← h.2]
        exact hinv

/-- **`epoll_ctl` keeps the invariant**, whatever it is asked and whether it fails or not. -/
theorem inv_epollCtl (hinv : s.Inv) {epfd op fd : ℤ} {r : Except ℕ Unit}
    (h : epollCtl s epfd op fd event = some (r, t)) : t.Inv := by
  unfold epollCtl at h
  cases hep : s.fds epfd with
  | none =>
      simp only [hep, Option.some.injEq, Prod.mk.injEq] at h
      rw [← h.2]
      exact hinv
  | some ep =>
      cases hm : s.obj ep with
      | none =>
          simp only [hep, hm, Option.some.injEq, Prod.mk.injEq] at h
          rw [← h.2]
          exact hinv
      | some m =>
          simp only [hep, hm] at h
          obtain ⟨⟨e, t'⟩, hr, heq⟩ := Option.map_eq_some_iff.mp h
          obtain rfl : t' = t := (Prod.mk.inj heq).2
          split_ifs at hr
          · exact inv_add hinv hm hr
          · obtain rfl : (s.mod ep m (s.fds fd) event).2 = t' :=
              congrArg Prod.snd (Option.some.inj hr)
            exact inv_mod hinv hm
          · exact inv_del hinv hm hr
          · cases hr
            exact hinv

end EpollState

/-! ## Destroying a file -/

/-- **`~epoll_obj()`** finds the epoll file in the `f_epolls` of each of its keys and erases it
there. -/
theorem removeAll_eq {ep : φ} :
    ∀ {ks : List φ} {epolls : φ → List φ}, ks.Nodup → (∀ K ∈ ks, ep ∈ epolls K) →
      removeAll ep ks epolls = some fun K => if K ∈ ks then (epolls K).erase ep else epolls K
  | [], epolls, _, _ => by simp [removeAll]
  | K :: ks, epolls, hnd, hmem => by
      rw [List.nodup_cons] at hnd
      have hrest : ∀ K' ∈ ks, ep ∈ Function.update epolls K ((epolls K).erase ep) K' := by
        intro K' hK'
        rw [Function.update_of_ne (fun h : K' = K => hnd.1 (h ▸ hK'))]
        exact hmem K' (List.mem_cons_of_mem K hK')
      rw [removeAll, removeMe, if_pos (hmem K List.mem_cons_self), Option.bind_some,
        removeAll_eq hnd.2 hrest]
      congr 1
      funext K'
      by_cases h : K' = K
      · subst h
        simp [hnd.1]
      · simp [h]

/-- Deleting the `epoll_obj` of `F` keeps the invariant, with `F` a key of nothing. -/
theorem RegInv.closeEpoll {obj : φ → Option (EpollMap φ)} {epolls : φ → List φ}
    (hinv : RegInv obj epolls) {F : φ} {m : EpollMap φ} (hm : obj F = some m) :
    removeAll F m.keys epolls =
        some (fun K => if K ∈ m.keys then (epolls K).erase F else epolls K) ∧
      RegInv (Function.update obj F none)
        (fun K => if K ∈ m.keys then (epolls K).erase F else epolls K) := by
  refine ⟨removeAll_eq m.keys_nodup fun K hK => ?_, fun E G => ?_⟩
  · rw [hinv.mem_iff, keyOf_of_obj hm]
    exact decide_eq_true (AList.mem_keys.mpr hK)
  · have hold := hinv E G
    rw [keyOf_update]
    by_cases hE : E = F
    · subst hE
      rw [keyOf_of_obj hm] at hold
      have hnone : keyOf (fun _ => (none : Option (EpollMap φ))) E G = false := rfl
      rw [if_pos rfl, hnone]
      by_cases hG : G ∈ m.keys
      · have hGm : G ∈ m := AList.mem_keys.mpr hG
        simp [hG, List.count_erase_self, hold, hGm]
      · have hGm : G ∉ m := fun h => hG (AList.mem_keys.mp h)
        simp [hG, hold, hGm]
    · by_cases hG : G ∈ m.keys
      · simp [hE, hG, List.count_erase_of_ne hE, hold]
      · simp [hE, hG, hold]

/-- The maps after the loop of `file::~file` over `Es` has done what it is meant to: `F` erased
from the map of every epoll file of `Es`. -/
def unregister (obj : φ → Option (EpollMap φ)) (Es : List φ) (F : φ) :
    φ → Option (EpollMap φ) :=
  fun E => if E ∈ Es then (obj E).map (AList.erase F) else obj E

theorem keyOf_unregister_of_ne (obj : φ → Option (EpollMap φ)) (Es : List φ) {E F G : φ}
    (hG : G ≠ F) : keyOf (unregister obj Es F) E G = keyOf obj E G := by
  by_cases hE : E ∈ Es
  · simp only [unregister, keyOf, hE, if_true]
    cases obj E <;> simp [hG]
  · simp only [unregister, keyOf, hE, if_false]

/-- **A loop that unregisters `F` everywhere** restores the invariant once the vector is gone. -/
theorem RegInv.of_unregister {obj : φ → Option (EpollMap φ)} {epolls : φ → List φ}
    (hinv : RegInv obj epolls) (F : φ) :
    RegInv (unregister obj (epolls F) F) (Function.update epolls F []) := by
  intro E G
  by_cases hG : G = F
  · subst hG
    -- no map holds `G` any more: those of `f_epolls` lost it, the others never had it
    have hkey : keyOf (Osv.Core.unregister obj (epolls G) G) E G = false := by
      by_cases hE : E ∈ epolls G
      · simp only [Osv.Core.unregister, keyOf, hE, if_true]
        cases obj E <;> simp
      · simp only [Osv.Core.unregister, keyOf, hE, if_false]
        exact Bool.eq_false_iff.mpr fun h => hE ((hinv.mem_iff E G).mpr h)
    simp [hkey]
  · rw [Function.update_of_ne hG, keyOf_unregister_of_ne obj _ hG]
    exact hinv E G

/-- Each epoll file of a registered file's `f_epolls` has it as a key, and appears there once. -/
theorem RegInv.registered {obj : φ → Option (EpollMap φ)} {epolls : φ → List φ}
    (hinv : RegInv obj epolls) {E F : φ} (hE : E ∈ epolls F) : ∃ m, obj E = some m ∧ F ∈ m := by
  have hkey := (hinv.mem_iff E F).mp hE
  unfold keyOf at hkey
  cases h : obj E with
  | none => simp [h] at hkey
  | some m => exact ⟨m, rfl, by simpa [h] using hkey⟩

theorem RegInv.count_le_one {obj : φ → Option (EpollMap φ)} {epolls : φ → List φ}
    (hinv : RegInv obj epolls) (E F : φ) : (epolls F).count E ≤ 1 := by
  rw [hinv E F]
  split <;> omega

theorem unregister_nil (obj : φ → Option (EpollMap φ)) (F : φ) : unregister obj [] F = obj := by
  funext E
  simp [unregister]

/-- Unregistering from one more epoll file, the last of the list. -/
theorem unregister_append_singleton {obj : φ → Option (EpollMap φ)} {Es : List φ} {E F : φ}
    {m : EpollMap φ} (h : obj E = some m) (hEs : E ∉ Es) :
    unregister obj (Es ++ [E]) F = Function.update (unregister obj Es F) E (some (m.erase F)) := by
  funext G
  by_cases hG : G = E
  · subst hG
    simp [unregister, h]
  · simp [unregister, hG]

/-- **The loop of `file::~file` over at most two epoll files** unregisters the file from each of
them: with two, the second is read from the slot past the vector's new end, where the `erase`
of the first left it. -/
theorem closedLoop_of_le_two {obj : φ → Option (EpollMap φ)} {epolls : φ → List φ}
    (hinv : RegInv obj epolls) {F : φ} (hlen : (epolls F).length ≤ 2) :
    (closedLoop F (epolls F).length 0 ⟨obj, epolls F, (epolls F).length⟩).map ClosedLoop.obj =
      some (unregister obj (epolls F) F) := by
  have hreg : ∀ E ∈ epolls F, ∃ m, obj E = some m ∧ F ∈ m := fun E hE => hinv.registered hE
  have hcount := fun E => hinv.count_le_one E F
  generalize epolls F = l at hreg hcount hlen ⊢
  match l, hlen with
  | [], _ => simp [closedLoop, unregister_nil]
  | [E1], _ =>
      obtain ⟨m1, h1, hF1⟩ := hreg E1 List.mem_cons_self
      rw [show [E1] = [] ++ [E1] from rfl, unregister_append_singleton h1 List.not_mem_nil,
        unregister_nil]
      simp [closedLoop, ClosedLoop.closed, h1, hF1]
  | [E1, E2], _ =>
      have hne : E1 ≠ E2 := by
        have hnd : [E1, E2].Nodup := List.nodup_iff_count_le_one.mpr hcount
        simpa using hnd
      obtain ⟨m1, h1, hF1⟩ := hreg E1 List.mem_cons_self
      obtain ⟨m2, h2, hF2⟩ := hreg E2 (by simp)
      rw [show [E1, E2] = [] ++ [E1] ++ [E2] from rfl,
        unregister_append_singleton h2 (by simpa using hne.symm),
        unregister_append_singleton h1 List.not_mem_nil, unregister_nil]
      simp [closedLoop, ClosedLoop.closed, h1, hF1, vecErase, Function.update_of_ne hne.symm,
        h2, hF2]

/-- **Destroying a file registered with at most two epolls keeps the invariant.** -/
theorem EpollState.Inv.destroy {s : EpollState φ} (hinv : s.Inv) {F : φ}
    (hlen : (s.epolls F).length ≤ 2) : ∃ t, s.destroy F = some t ∧ t.Inv := by
  -- after `fo_close` the invariant holds of the maps with `F`'s deleted
  obtain ⟨epolls, hclose, hreg, hle⟩ : ∃ epolls, s.foClose F = some epolls ∧
      RegInv (Function.update s.obj F none) epolls ∧ (epolls F).length ≤ 2 := by
    cases hF : s.obj F with
    | none =>
        refine ⟨s.epolls, by simp [EpollState.foClose, hF], ?_, hlen⟩
        rw [← hF, Function.update_eq_self]
        exact hinv
    | some m =>
        obtain ⟨hrm, hreg⟩ := RegInv.closeEpoll hinv hF
        refine ⟨_, by simp only [EpollState.foClose, hF, hrm], hreg, ?_⟩
        by_cases hk : F ∈ m.keys
        · simpa [hk] using List.length_erase_le.trans hlen
        · simpa [hk] using hlen
  obtain ⟨st, hloop, hobj⟩ := Option.map_eq_some_iff.mp (closedLoop_of_le_two hreg hle)
  refine ⟨⟨s.fds, st.obj, Function.update epolls F []⟩, ?_, ?_⟩
  · simp only [EpollState.destroy, hclose, Option.bind_eq_bind, Option.bind_some, hloop]
  · show RegInv st.obj (Function.update epolls F [])
    rw [hobj]
    exact hreg.of_unregister F

/-- **Destroying a file registered with three epolls** leaves it a key of the second: the first
`del` moves the second epoll file into slot `0`, which the loop has read, and the third into
slot `1`, which it reads next. -/
theorem destroy_three_epolls {s : EpollState φ} (hinv : s.Inv) {F E1 E2 E3 : φ}
    (hF : s.obj F = none) (h3 : s.epolls F = [E1, E2, E3]) :
    ∃ t, s.destroy F = some t ∧ keyOf t.obj E2 F = true ∧ t.epolls F = [] ∧ ¬ t.Inv := by
  have hreg : ∀ E ∈ s.epolls F, ∃ m, s.obj E = some m ∧ F ∈ m := fun E hE => hinv.registered hE
  have hcount := fun E => hinv.count_le_one E F
  rw [h3] at hreg hcount
  -- the three epoll files are distinct, and none is `F`, which has no map
  have hnd : [E1, E2, E3].Nodup := List.nodup_iff_count_le_one.mpr hcount
  simp only [List.nodup_cons, List.mem_cons, List.not_mem_nil, or_false, not_or] at hnd
  obtain ⟨⟨h12, h13⟩, h23, -⟩ := hnd
  obtain ⟨m1, h1, hF1⟩ := hreg E1 (by simp)
  obtain ⟨m2, h2, hF2⟩ := hreg E2 (by simp)
  obtain ⟨m3, h3', hF3⟩ := hreg E3 (by simp)
  have hF1' : E1 ≠ F := fun h => by rw [h, hF] at h1; cases h1
  have hF2' : E2 ≠ F := fun h => by rw [h, hF] at h2; cases h2
  have hF3' : E3 ≠ F := fun h => by rw [h, hF] at h3'; cases h3'
  refine ⟨⟨s.fds, Function.update (Function.update (Function.update s.obj F none) E1
    (some (m1.erase F))) E3 (some (m3.erase F)), Function.update s.epolls F []⟩, ?_, ?_, ?_, ?_⟩
  · simp [EpollState.destroy, EpollState.foClose, hF, h3, closedLoop, ClosedLoop.closed,
      Function.update_of_ne hF1', Function.update_of_ne hF3', h1, h3', hF1, hF3, vecErase,
      Function.update_of_ne (Ne.symm h13), h23]
  · simp [keyOf, Function.update_of_ne h23, Function.update_of_ne (Ne.symm h12),
      Function.update_of_ne hF2', h2, hF2]
  · simp
  · intro hinv'
    have hk := hinv' E2 F
    simp [keyOf, Function.update_of_ne h23, Function.update_of_ne (Ne.symm h12),
      Function.update_of_ne hF2', h2, hF2] at hk

/-! ## Every run -/

theorem EpollState.inv_init (fds : ℤ → Option φ) (isEpoll : φ → Bool) :
    (EpollState.init fds isEpoll).Inv := by
  intro E F
  by_cases h : isEpoll E = true <;> simp [EpollState.init, keyOf, h]

/-- Installing a fresh file, with an empty map or none, changes no registration. -/
theorem keyOf_fresh {obj : φ → Option (EpollMap φ)} {f : φ} (hf : obj f = none)
    (m : Option (EpollMap φ)) (hm : ∀ G, keyOf (fun _ => m) f G = false) (E G : φ) :
    keyOf (Function.update obj f m) E G = keyOf obj E G := by
  rw [keyOf_update]
  by_cases hE : E = f
  · subst hE
    rw [if_pos rfl, hm G]
    simp [keyOf, hf]
  · simp [hE]

/-- The steps that do not destroy a file registered with three or more epolls. -/
def FewRegistrations (s : EpollState φ) : EpollCall φ → Prop
  | .destroy f => (s.epolls f).length ≤ 2
  | _ => True

/-- epoll in the runs in which no file is destroyed while registered with three or more
epolls. -/
def epollSystemFew (fds : ℤ → Option φ) (isEpoll : φ → Bool) :
    System (EpollState φ) (EpollCall φ) where
  init := (epollSystem fds isEpoll).init
  step s l t := FewRegistrations s l ∧ (epollSystem fds isEpoll).step s l t

/-- **Every step keeps the registration invariant**, the destruction of a file only when it is
registered with at most two epolls. -/
theorem EpollState.Inv.step {fds : ℤ → Option φ} {isEpoll : φ → Bool} {s t : EpollState φ}
    {l : EpollCall φ} (hinv : s.Inv) (hfew : FewRegistrations s l)
    (h : (epollSystem fds isEpoll).step s l t) : t.Inv := by
  cases l with
  | ctl epfd op fd event =>
      obtain ⟨r, hr⟩ := h
      exact EpollState.inv_epollCtl hinv hr
  | create fd f =>
      obtain ⟨-, ⟨-, hobj, -⟩, rfl⟩ := h
      exact RegInv.of_keyOf hinv (keyOf_fresh hobj _ fun G => by simp [keyOf])
  | openFile fd f =>
      obtain ⟨-, -, rfl⟩ := h
      exact hinv
  | close fd =>
      subst h
      exact hinv
  | destroy f =>
      obtain ⟨-, hd⟩ := h
      obtain ⟨t', ht', hinv'⟩ := hinv.destroy hfew
      rw [hd, Option.some.injEq] at ht'
      rwa [ht']

/-- **The registration invariant in every reachable state** of the runs in which no file is
destroyed while registered with three or more epolls. -/
theorem inv_reachable_of_few {fds : ℤ → Option φ} {isEpoll : φ → Bool} {s : EpollState φ}
    (hs : Reachable (epollSystemFew fds isEpoll) s) : s.Inv :=
  Inductive.reachable ⟨fun _ h => h ▸ EpollState.inv_init fds isEpoll,
    fun _ _ _ hinv ⟨hfew, hst⟩ => hinv.step hfew hst⟩ hs

/-! ## `epoll_ctl` on a descriptor that is not open -/

theorem epoll_ctl_closed_fd {s : EpollState φ} {epfd fd : ℤ} {ep : φ} {m : EpollMap φ}
    (hep : s.fds epfd = some ep) (hm : s.obj ep = some m) (hfd : s.fds fd = none)
    (event : EpollEvent) :
    epollCtl s epfd EPOLL_CTL_DEL fd event = some (.error ENOENT, s) ∧
      epollCtl s epfd EPOLL_CTL_MOD fd event = some (.error ENOENT, s) ∧
      epollCtl s epfd EPOLL_CTL_ADD fd event = none := by
  refine ⟨?_, ?_, ?_⟩ <;>
    simp [epollCtl, hep, hm, hfd, EpollState.add, EpollState.mod, EpollState.del,
      EPOLL_CTL_ADD, EPOLL_CTL_MOD, EPOLL_CTL_DEL, ENOENT]

/-- One epoll file `0`, at descriptor `0`; no other descriptor is open. -/
def oneEpoll : EpollState ℕ :=
  .init (fun fd => if fd = 0 then some 0 else none) fun f => decide (f = 0)

theorem epoll_ctl_closed_fd_one :
    oneEpoll.fds 0 = some 0 ∧ oneEpoll.obj 0 = some ∅ ∧ oneEpoll.fds 1 = none ∧
      epollCtl oneEpoll 0 EPOLL_CTL_DEL 1 ⟨1, 0⟩ = some (.error ENOENT, oneEpoll) ∧
      epollCtl oneEpoll 0 EPOLL_CTL_MOD 1 ⟨1, 0⟩ = some (.error ENOENT, oneEpoll) ∧
      epollCtl oneEpoll 0 EPOLL_CTL_ADD 1 ⟨1, 0⟩ = none :=
  ⟨rfl, rfl, rfl, epoll_ctl_closed_fd rfl rfl rfl ⟨1, 0⟩⟩

end Osv.Core
