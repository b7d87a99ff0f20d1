import Mathlib.Data.List.TakeWhile
import Mathlib.Logic.Function.Basic
import Osv.Vfs.Fcntl
import Osv.Vfs.Mount

/-!
# Path lookup and dentry references: `namei`

`namei(path, &dp)` (`fs/vfs/vfs_lookup.c`) turns a path into a dentry with one reference for the
caller.  It finds the mount with `vfs_findroot`, and returns at once a dentry of the mount
already cached under the whole path.  Otherwise it takes a reference on the mount's root
dentry and walks the components: each step finds the child's dentry in the cache
(`dentry_lookup` takes a reference) or builds it, with a new vnode from `vget` that
`VOP_LOOKUP` fills in and a dentry from `dentry_alloc` that holds a vnode reference; then the
parent's reference is dropped with `drele`, which frees a dentry, and its vnode's reference,
when the count reaches `0`.  `lookup` calls `namei` on the directory part of a path.

**The model.**  The cache is `DCache`: the dentries and vnodes by address, their reference
counts `d_refcnt` and `v_refcnt`, each vnode's `v_names`, the dentry hash table as the list of
its dentries, each chain in its own order, and the next address an allocation gets.  Locks are
left out: `namei` takes and drops them in pairs.  What the file system's `VOP_LOOKUP` answers
and which allocations fail are the environment's `Env`; an `ASSERT` that fails, or a null
pointer read, is `none`.  Paths are shorter than `PATH_MAX`.

**What holds.**  From a cache with the dentry cache invariant (`DCache.Inv`), on every path whose
rest after the mount point is empty or names a component, `namei` returns an error with every
count and list as they were (`DCache.Same`), or a dentry with one more reference, every other
count as it was, and every dentry it built on the way freed (`DCache.Plus`): `namei_balanced`.

**What does not** (`namei_only_slashes`).  When the rest after the mount point is nothing but
slashes, say `///` on the root mount, and no dentry is cached under `/` and those slashes, the
walk finds no component: `namei` returns `0` with the null `dp` it got from the failed
`dentry_lookup`, and the reference it took on the root dentry is never dropped.
-/

namespace Osv.Vfs

open Function

/-- `ENOMEM` -/
def ENOMEM : ℕ := 12
/-- `ENOTDIR` -/
def ENOTDIR : ℕ := 20

/-- `enum vtype` -/
inductive VType where
  | VNON | VREG | VDIR | VBLK | VCHR | VLNK | VSOCK | VFIFO | VBAD
  deriving DecidableEq, Repr

/-- The fields of a `struct dentry` besides its count: `d_mount`, `d_path` and `d_vnode`. -/
structure Dentry where
  mount : Mount
  path : List Char
  vnode : ℕ
  deriving DecidableEq, Repr

/-- The fields of a `struct vnode` besides its count and names: `v_mount`, `v_path` and
`v_type`. -/
structure Vnode where
  mount : Mount
  path : List Char
  type : VType
  deriving DecidableEq, Repr

/-- The dentry cache and the vnodes, by address. -/
structure DCache where
  dentry : ℕ → Option Dentry
  /-- `d_refcnt` -/
  dcount : ℕ → ℕ
  vnode : ℕ → Option Vnode
  /-- `v_refcnt` -/
  vcount : ℕ → ℕ
  /-- `v_names`, the dentries naming the vnode -/
  names : ℕ → List ℕ
  /-- the dentries of `dentry_hash_table` -/
  hash : List ℕ
  /-- the address the next allocation gets -/
  next : ℕ

/-- What `namei` does not compute itself: the mounts, what the file system's `VOP_LOOKUP`
finds for a name in a directory, and which allocations fail, by address. -/
structure Env where
  mounts : List Mount
  fsLookup : List Char → List Char → Except ℕ VType
  allocFails : ℕ → Bool

namespace DCache

variable (s : DCache)

/-- `dp->d_refcnt++` -/
def bump (x : ℕ) : DCache := { s with dcount := update s.dcount x (s.dcount x + 1) }

/-- Dentry `x` is of mount `mp` and cached under `path`. -/
def cachedAs (mp : Mount) (path : List Char) (x : ℕ) : Bool :=
  (s.dentry x).any fun d => d.mount == mp && d.path == path

/-- `dentry_lookup(mp, path)`: the first dentry of the chain with the mount and the path, its
count taken up. -/
def dentryLookup (mp : Mount) (path : List Char) : Option ℕ × DCache :=
  match s.hash.find? (s.cachedAs mp path) with
  | some x => (some x, s.bump x)
  | none => (none, s)

/-- `dref(dp)`, whose `ASSERT`s want a dentry with a positive count. -/
def dref (x : ℕ) : Option DCache :=
  if (s.dentry x).isSome ∧ 0 < s.dcount x then some (s.bump x) else none

/-- `vrele(vp)`: the count down, and the vnode freed at `0`. -/
def vrele (v : ℕ) : Option DCache :=
  if (s.vnode v).isNone ∨ s.vcount v = 0 then none
  else if 1 < s.vcount v then some { s with vcount := update s.vcount v (s.vcount v - 1) }
  else some { s with vcount := update s.vcount v 0, vnode := update s.vnode v none }

/-- `vput(vp)`: `vrele` and the unlock. -/
def vput (v : ℕ) : Option DCache := s.vrele v

/-- The count of `x` down to `0`, then `LIST_REMOVE(dp, d_link)` and
`vn_del_name(dp->d_vnode, dp)`. -/
def unlink (x : ℕ) (d : Dentry) : DCache :=
  { s with
    dcount := update s.dcount x 0
    hash := s.hash.erase x
    names := update s.names d.vnode ((s.names d.vnode).erase x) }

/-- `free(dp)` -/
def freeDentry (x : ℕ) : DCache := { s with dentry := update s.dentry x none }

/-- `drele(dp)`: the count down; at `0` the dentry leaves the hash table and its vnode's
names, its vnode reference is dropped, and it is freed. -/
def drele (x : ℕ) : Option DCache :=
  match s.dentry x with
  | none => none
  | some d =>
    if s.dcount x = 0 then none
    else if 1 < s.dcount x then some { s with dcount := update s.dcount x (s.dcount x - 1) }
    else ((s.unlink x d).vrele d.vnode).map (·.freeDentry x)

/-- `vget(mp, path)`: a new vnode with one reference, or null when an allocation or
`VFS_VGET` fails. -/
def vget (env : Env) (mp : Mount) (path : List Char) : Option ℕ × DCache :=
  if env.allocFails s.next then (none, { s with next := s.next + 1 })
  else
    (some s.next,
      { s with
        vnode := update s.vnode s.next (some ⟨mp, path, .VNON⟩)
        vcount := update s.vcount s.next 1
        names := update s.names s.next []
        next := s.next + 1 })

/-- What `VOP_LOOKUP` writes into the vnode it fills: its type. -/
def setType (v : ℕ) (t : VType) : DCache :=
  { s with vnode := update s.vnode v ((s.vnode v).map fun n => { n with type := t }) }

/-- `dentry_alloc(vp, path)`: a new dentry with one reference, holding one on `vp` and first in
its `v_names` and its hash chain; null when `calloc` fails. -/
def dentryAlloc (env : Env) (v : ℕ) (path : List Char) : Option (Option ℕ × DCache) :=
  if env.allocFails s.next then some (none, { s with next := s.next + 1 })
  else (s.vnode v).map fun n =>
    (some s.next,
      { s with
        dentry := update s.dentry s.next (some ⟨n.mount, path, v⟩)
        dcount := update s.dcount s.next 1
        vcount := update s.vcount v (s.vcount v + 1)
        names := update s.names v (s.next :: s.names v)
        hash := s.next :: s.hash
        next := s.next + 1 })

/-- The type of the vnode of dentry `x`, `ddp->d_vnode->v_type`. -/
def vtypeOf (x : ℕ) : Option VType :=
  (s.dentry x).bind fun d => (s.vnode d.vnode).map (·.type)

end DCache

/-! ## `namei` -/

/-- One component of `namei`'s walk, from the directory dentry `ddp` holding a reference, to the
dentry of `node` holding one in its place, or to an error with `ddp`'s reference dropped. -/
def nameiStep (env : Env) (mp : Mount) (node name : List Char) (ddp : ℕ) (s : DCache) :
    Option (Except ℕ ℕ × DCache) :=
  match s.dentryLookup mp node with
  | (some dp, s) => (s.drele ddp).map fun s => (.ok dp, s)
  | (none, s) =>
    match s.vget env mp node with
    | (none, s) => (s.drele ddp).map fun s => (.error ENOMEM, s)
    | (some vp, s) =>
      match (s.dentry ddp).bind fun d => s.vnode d.vnode with
      | none => none
      | some dvp =>
        match env.fsLookup dvp.path name with
        | .error e => ((s.vput vp).bind (·.drele ddp)).map fun s => (.error e, s)
        | .ok t =>
          match (s.setType vp t).dentryAlloc env vp node with
          | none => none
          | some (some dp, s) => ((s.vput vp).bind (·.drele ddp)).map fun s => (.ok dp, s)
          | some (none, s) => ((s.vput vp).bind (·.drele ddp)).map fun s => (.error ENOMEM, s)

/-- The `while (*p != '\0')` loop of `namei` over the rest `p` of the path, with the walked
path `node`, the directory `ddp` and the last dentry found `dp`; `fuel` bounds the turns. -/
def nameiLoop (env : Env) (mp : Mount) :
    ℕ → List Char → List Char → ℕ → Option ℕ → DCache → Option (Except ℕ (Option ℕ) × DCache)
  | fuel, p, node, ddp, dp, s =>
    -- `while (*p == '/') p++; if (*p == '\0') break;`
    let p := p.dropWhile (· = '/')
    if p = [] then some (.ok dp, s)
    else
      match fuel with
      | 0 => none
      | fuel + 1 =>
        let name := p.takeWhile (· ≠ '/')
        let rest := p.dropWhile (· ≠ '/')
        let node := node ++ '/' :: name
        match nameiStep env mp node name ddp s with
        | none => none
        | some (.error e, s) => some (.error e, s)
        | some (.ok dp, s) =>
          match s.vtypeOf dp with
          | none => none
          | some t =>
            if rest.head? = some '/' ∧ t ≠ .VDIR then
              (s.drele dp).map fun s => (.error ENOTDIR, s)
            else nameiLoop env mp fuel rest node dp (some dp) s

/-- `namei(path, &dp)`: an error, or `0` with `*dpp`, null being `none`. -/
def namei (env : Env) (s : DCache) (path : List Char) : Option (Except ℕ (Option ℕ) × DCache) :=
  match vfsFindroot env.mounts path with
  | none => some (.error ENOTDIR, s)
  | some (mp, p) =>
    match s.dentryLookup mp ('/' :: p) with
    | (some dp, s) => some (.ok (some dp), s)
    | (none, s) => (s.dref mp.mRoot).bind fun s => nameiLoop env mp p.length p [] mp.mRoot none s

/-! ## What the walk does to the cache -/

namespace DCache

variable (s : DCache)

/-- A new vnode `v` with one reference and no names, as `vget` makes it. -/
def addVnode (v : ℕ) (n : Vnode) : DCache :=
  { s with
    vnode := update s.vnode v (some n)
    vcount := update s.vcount v 1
    names := update s.names v [] }

/-- A new dentry `x` with one reference on a new vnode `v` with one reference: `x` first in the
hash table and the only name of `v`. -/
def addDentry (x v : ℕ) (d : Dentry) (n : Vnode) : DCache :=
  { s with
    dentry := update s.dentry x (some d)
    dcount := update s.dcount x 1
    vnode := update s.vnode v (some n)
    vcount := update s.vcount v 1
    names := update s.names v [x]
    hash := x :: s.hash }

/-- **The cache invariant.**  The hash table holds each live dentry once; a live dentry has a
positive count, a live vnode and a place among the vnode's names; a vnode holds a reference for
each of its names; and nothing at or past `next` has been allocated. -/
structure Inv : Prop where
  hash_nodup : s.hash.Nodup
  mem_hash : ∀ x, x ∈ s.hash ↔ (s.dentry x).isSome
  dcount_pos : ∀ x, (s.dentry x).isSome → 0 < s.dcount x
  named : ∀ x d, s.dentry x = some d → (s.vnode d.vnode).isSome ∧ x ∈ s.names d.vnode
  names_nodup : ∀ v, (s.names v).Nodup
  names_le : ∀ v, (s.names v).length ≤ s.vcount v
  fresh : ∀ x, s.next ≤ x →
    s.dentry x = none ∧ s.dcount x = 0 ∧ s.vnode x = none ∧ s.vcount x = 0 ∧ s.names x = []

/-- `t` is `s` with only more addresses spent. -/
inductive Same : DCache → Prop
  | next_le (k : ℕ) (hk : s.next ≤ k) : Same { s with next := k }

/-- `t` is `s` with one more reference on the dentry `x`: a reference taken on a dentry of `s`,
or a dentry built with a vnode of its own, both new. -/
inductive Plus (x : ℕ) : DCache → Prop
  | bumped (k : ℕ) (hk : s.next ≤ k) (hx : x ∈ s.hash) : Plus x { s.bump x with next := k }
  | built (k v : ℕ) (d : Dentry) (n : Vnode) (hd : d.vnode = v) (hx : s.next ≤ x)
      (hv : s.next ≤ v) (hxk : x < k) (hvk : v < k) :
      Plus x { s.addDentry x v d n with next := k }

variable {s}

theorem Inv.lt_next (hs : s.Inv) {x : ℕ} (hx : (s.dentry x).isSome) : x < s.next := by
  by_contra hle
  rw [(hs.fresh x (by omega)).1] at hx
  cases hx

theorem Inv.vnode_lt_next (hs : s.Inv) {v : ℕ} (hv : (s.vnode v).isSome) : v < s.next := by
  by_contra hle
  rw [(hs.fresh v (by omega)).2.2.1] at hv
  cases hv

/-- The vnode of a live dentry is not one allocated at or past `next`. -/
theorem Inv.vnode_ne (hs : s.Inv) {x v : ℕ} {d : Dentry} (hd : s.dentry x = some d)
    (hv : s.next ≤ v) : d.vnode ≠ v := by
  have := hs.vnode_lt_next (hs.named x d hd).1
  omega

theorem Inv.of_same (hs : s.Inv) {t : DCache} (h : s.Same t) : t.Inv := by
  cases h with
  | next_le k hk =>
    exact ⟨hs.hash_nodup, hs.mem_hash, hs.dcount_pos, hs.named, hs.names_nodup, hs.names_le,
      fun x hx => hs.fresh x (Nat.le_trans hk hx)⟩

/-- A reference more on a live dentry keeps the invariant. -/
theorem Inv.of_bump (hs : s.Inv) {x k : ℕ} (hk : s.next ≤ k) (hx : x ∈ s.hash) :
    { s.bump x with next := k }.Inv := by
  have hlt := hs.lt_next ((hs.mem_hash x).mp hx)
  refine ⟨hs.hash_nodup, hs.mem_hash, fun z hz => ?_, hs.named, hs.names_nodup, hs.names_le,
    fun z (hz : k ≤ z) => ?_⟩
  · by_cases hzx : z = x
    · subst hzx
      simp [bump]
    · simpa [bump, update_of_ne hzx] using hs.dcount_pos z hz
  · have hzx : z ≠ x := by omega
    simpa [bump, update_of_ne hzx] using hs.fresh z (by omega)

/-- A new dentry on a new vnode, each with one reference, keeps the invariant. -/
theorem Inv.of_addDentry (hs : s.Inv) {x v k : ℕ} {d : Dentry} {n : Vnode} (hd : d.vnode = v)
    (hx : s.next ≤ x) (hv : s.next ≤ v) (hxk : x < k) (hvk : v < k) :
    { s.addDentry x v d n with next := k }.Inv := by
  obtain ⟨hdx, hcx, -, -, -⟩ := hs.fresh x hx
  obtain ⟨-, -, hnv, -, -⟩ := hs.fresh v hv
  have hxh : x ∉ s.hash := by simp [hs.mem_hash x, hdx]
  refine ⟨List.nodup_cons.mpr ⟨hxh, hs.hash_nodup⟩, fun z => ?_, fun z hz => ?_,
    fun z dz hz => ?_, fun w => ?_, fun w => ?_, fun z (hz : k ≤ z) => ?_⟩
  · by_cases hzx : z = x
    · subst hzx
      simp [addDentry]
    · simp [addDentry, hzx, hs.mem_hash z]
  · by_cases hzx : z = x
    · subst hzx
      simp [addDentry]
    · simp only [addDentry, update_of_ne hzx] at hz ⊢
      exact hs.dcount_pos z hz
  · by_cases hzx : z = x
    · -- the new dentry: its vnode is the new one, named by it alone
      subst hzx
      simp only [addDentry, update_self, Option.some.injEq] at hz
      subst hz
      simp [addDentry, hd]
    · -- an old dentry's vnode is live in `s`, so it is not the new one
      simp only [addDentry, update_of_ne hzx] at hz
      have hne : dz.vnode ≠ v := hs.vnode_ne hz hv
      simpa [addDentry, update_of_ne hne] using hs.named z dz hz
  · by_cases hwv : w = v
    · subst hwv
      simp [addDentry]
    · simpa [addDentry, update_of_ne hwv] using hs.names_nodup w
  · by_cases hwv : w = v
    · subst hwv
      simp [addDentry]
    · simpa [addDentry, update_of_ne hwv] using hs.names_le w
  · have hzx : z ≠ x := by omega
    have hzv : z ≠ v := by omega
    simpa [addDentry, update_of_ne hzx, update_of_ne hzv] using hs.fresh z (by omega)

/-! ### `drele` against the other operations

`drele x` touches the count, the hash entry and the memory of `x` and the count and names of
its vnode; `bump y` and `addDentry y v` touch those of `y` and `v`.  Apart, they commute. -/

@[simp] theorem bump_dentry (y : ℕ) : (s.bump y).dentry = s.dentry := rfl
@[simp] theorem bump_vnode (y : ℕ) : (s.bump y).vnode = s.vnode := rfl
@[simp] theorem bump_vcount (y : ℕ) : (s.bump y).vcount = s.vcount := rfl
@[simp] theorem addDentry_dcount_of_ne {x y v : ℕ} {d : Dentry} {n : Vnode} (hxy : x ≠ y) :
    (s.addDentry y v d n).dcount x = s.dcount x := update_of_ne hxy _ _

/-- `vrele` reads nothing of `next`. -/
theorem vrele_next (v k : ℕ) :
    { s with next := k }.vrele v = (s.vrele v).map fun u => { u with next := k } := by
  by_cases h0 : (s.vnode v).isNone = true ∨ s.vcount v = 0
  · simp only [vrele, h0, ↓reduceIte, Option.map_none]
  · by_cases h1 : 1 < s.vcount v
    · simp only [vrele, h0, h1, ↓reduceIte, Option.map_some]
    · simp only [vrele, h0, h1, ↓reduceIte, Option.map_some]

/-- `drele` reads nothing of `next`. -/
theorem drele_next (x k : ℕ) :
    { s with next := k }.drele x = (s.drele x).map fun u => { u with next := k } := by
  rcases hd : s.dentry x with _ | d
  · simp [drele, hd]
  · simp only [drele, hd]
    split_ifs
    · rfl
    · rfl
    · have hu : { s with next := k }.unlink x d = { s.unlink x d with next := k } := rfl
      rw [hu, vrele_next, Option.map_map, Option.map_map]
      rfl

theorem unlink_bump {x y : ℕ} (hxy : x ≠ y) (d : Dentry) :
    (s.bump y).unlink x d = (s.unlink x d).bump y := by
  simp only [unlink, bump, update_of_ne hxy.symm, update_comm hxy]

theorem vrele_bump (v y : ℕ) : (s.bump y).vrele v = (s.vrele v).map (·.bump y) := by
  by_cases h0 : (s.vnode v).isNone = true ∨ s.vcount v = 0
  · simp only [vrele, bump, h0, ↓reduceIte, Option.map_none]
  · by_cases h1 : 1 < s.vcount v
    · simp only [vrele, bump, h0, h1, ↓reduceIte, Option.map_some]
    · simp only [vrele, bump, h0, h1, ↓reduceIte, Option.map_some]

theorem drele_bump_of_ne {x y : ℕ} (hxy : x ≠ y) :
    (s.bump y).drele x = (s.drele x).map (·.bump y) := by
  have hc : (s.bump y).dcount x = s.dcount x := update_of_ne hxy _ _
  rcases hd : s.dentry x with _ | d
  · simp [drele, hd]
  · simp only [drele, bump_dentry, hd, hc]
    split_ifs
    · rfl
    · -- the count down at `x`, up at `y`
      simp only [Option.map_some, bump, update_of_ne hxy.symm, update_comm hxy]
    · rw [unlink_bump hxy, vrele_bump, Option.map_map, Option.map_map]
      rfl

/-- The one reference on `x` taken back. -/
theorem drele_bump_self {x : ℕ} (hd : (s.dentry x).isSome) (hc : 0 < s.dcount x) :
    (s.bump x).drele x = some s := by
  obtain ⟨d, hd⟩ := Option.isSome_iff_exists.mp hd
  have h1 : 1 < (s.bump x).dcount x := by simp [bump]; omega
  simp only [drele, bump_dentry, hd, if_neg (Nat.ne_zero_of_lt h1), if_pos h1]
  simp [bump]

theorem unlink_addDentry {x y v : ℕ} {d e : Dentry} {n : Vnode} (hxy : x ≠ y)
    (hv : d.vnode ≠ v) : (s.addDentry y v e n).unlink x d = (s.unlink x d).addDentry y v e n := by
  simp only [unlink, addDentry, update_of_ne hv, update_comm hxy, update_comm hv,
    List.erase_cons_tail (by simpa using hxy.symm : ¬(y == x) = true)]

theorem vrele_addDentry {w y v : ℕ} {e : Dentry} {n : Vnode} (hw : w ≠ v) :
    (s.addDentry y v e n).vrele w = (s.vrele w).map (·.addDentry y v e n) := by
  have hvn : (s.addDentry y v e n).vnode w = s.vnode w := update_of_ne hw _ _
  have hvc : (s.addDentry y v e n).vcount w = s.vcount w := update_of_ne hw _ _
  by_cases h0 : (s.vnode w).isNone = true ∨ s.vcount w = 0
  · simp only [vrele, hvn, hvc, h0, ↓reduceIte, Option.map_none]
  · by_cases h1 : 1 < s.vcount w
    · simp only [vrele, hvn, hvc, h0, h1, ↓reduceIte, Option.map_some]
      simp only [addDentry, update_comm hw]
    · simp only [vrele, hvn, hvc, h0, h1, ↓reduceIte, Option.map_some]
      simp only [addDentry, update_comm hw]

theorem drele_addDentry_of_ne {x y v : ℕ} {e : Dentry} {n : Vnode} (hxy : x ≠ y)
    (hv : ∀ d, s.dentry x = some d → d.vnode ≠ v) :
    (s.addDentry y v e n).drele x = (s.drele x).map (·.addDentry y v e n) := by
  have hc : (s.addDentry y v e n).dcount x = s.dcount x := update_of_ne hxy _ _
  have hdx : (s.addDentry y v e n).dentry x = s.dentry x := update_of_ne hxy _ _
  rcases hd : s.dentry x with _ | d
  · simp [drele, hdx, hd]
  · simp only [drele, hdx, hd, hc]
    split_ifs
    · rfl
    · -- the count down at `x`, the new dentry at `y`
      simp only [Option.map_some, addDentry, update_comm hxy]
    · have hfree : ∀ u : DCache, (u.addDentry y v e n).freeDentry x =
          (u.freeDentry x).addDentry y v e n := fun u => by
        simp only [freeDentry, addDentry, update_comm hxy]
      rw [unlink_addDentry hxy (hv d hd), vrele_addDentry (hv d hd), Option.map_map,
        Option.map_map]
      simp only [Function.comp_def, hfree]

/-- The one reference on a dentry built with its vnode taken back: both are freed. -/
theorem drele_addDentry_self {x v : ℕ} {d : Dentry} {n : Vnode} (hd : d.vnode = v)
    (hdx : s.dentry x = none) (hcx : s.dcount x = 0) (hxh : x ∉ s.hash) (hnv : s.vnode v = none)
    (hcv : s.vcount v = 0) (hnm : s.names v = []) : (s.addDentry x v d n).drele x = some s := by
  subst hd
  cases s
  simp_all [drele, addDentry, unlink, vrele, freeDentry, update_eq_self_iff]

/-! ### One reference more -/

theorem Plus.next_le {x : ℕ} {t : DCache} (h : s.Plus x t) : s.next ≤ t.next := by
  cases h with
  | bumped k hk hx => exact hk
  | built k v d n hd hx hv hxk hvk => exact Nat.le_of_lt (Nat.lt_of_le_of_lt hx hxk)

theorem Plus.dentry_isSome (hs : s.Inv) {x : ℕ} {t : DCache} (h : s.Plus x t) :
    (t.dentry x).isSome := by
  cases h with
  | bumped k hk hx => exact (hs.mem_hash x).mp hx
  | built k v d n hd hx hv hxk hvk => simp [addDentry]

/-- Besides `x`, a dentry of `t`'s hash table is one of `s`'s. -/
theorem Plus.mem_hash {x : ℕ} {t : DCache} (h : s.Plus x t) {z : ℕ} (hz : z ∈ t.hash)
    (hzx : z ≠ x) : z ∈ s.hash := by
  cases h with
  | bumped k hk hx => exact hz
  | built k v d n hd hx hv hxk hvk => exact (List.mem_cons.mp hz).resolve_left hzx

/-- **Dropping the reference more** gives `s` back, up to the addresses spent. -/
theorem Plus.drele (hs : s.Inv) {x : ℕ} {t : DCache} (h : s.Plus x t) :
    t.drele x = some { s with next := t.next } := by
  cases h with
  | bumped k hk hx =>
    have hd := (hs.mem_hash x).mp hx
    rw [drele_next, drele_bump_self hd (hs.dcount_pos x hd)]
    rfl
  | built k v d n hd hx hv hxk hvk =>
    obtain ⟨hdx, hcx, -, -, -⟩ := hs.fresh x hx
    obtain ⟨-, -, hnv, hcv, hnm⟩ := hs.fresh v hv
    have hxh : x ∉ s.hash := by simp [hs.mem_hash x, hdx]
    rw [drele_next, drele_addDentry_self hd hdx hcx hxh hnv hcv hnm]
    rfl

/-! ### `vget`, `VOP_LOOKUP` and `dentry_alloc` on a fresh address -/

theorem vget_of_fails {env : Env} {mp : Mount} {path : List Char}
    (h : env.allocFails s.next = true) :
    s.vget env mp path = (none, { s with next := s.next + 1 }) := if_pos h

theorem vget_of_not_fails {env : Env} {mp : Mount} {path : List Char}
    (h : env.allocFails s.next = false) :
    s.vget env mp path =
      (some s.next, { s.addVnode s.next ⟨mp, path, .VNON⟩ with next := s.next + 1 }) := by
  simp [vget, h, addVnode]

theorem setType_addVnode (v k : ℕ) (n : Vnode) (t : VType) :
    { s.addVnode v n with next := k }.setType v t =
      { s.addVnode v { n with type := t } with next := k } := by
  simp [setType, addVnode]

/-- `vput` of a vnode that `vget` made gives it back. -/
theorem vput_addVnode {v : ℕ} (n : Vnode) (k : ℕ) (hnv : s.vnode v = none)
    (hcv : s.vcount v = 0) (hnm : s.names v = []) :
    { s.addVnode v n with next := k }.vput v = some { s with next := k } := by
  cases s
  simp_all [vput, vrele, addVnode, update_eq_self_iff]

/-- `dentry_alloc` on the vnode `vget` made, and the `vput` after it: the vnode keeps the
dentry's reference alone. -/
theorem vput_dentryAlloc {env : Env} {v k : ℕ} {n : Vnode} {path : List Char}
    (h : env.allocFails k = false) :
    ∃ w, { s.addVnode v n with next := k }.dentryAlloc env v path = some (some k, w) ∧
      w.vput v = some { s.addDentry k v ⟨n.mount, path, v⟩ n with next := k + 1 } := by
  have hv : (s.addVnode v n).vnode v = some n := update_self _ _ _
  refine ⟨_, by simp only [dentryAlloc, h, Bool.false_eq_true, ↓reduceIte, hv, Option.map_some]; rfl,
    ?_⟩
  simp [vput, vrele, addVnode, addDentry]

theorem Inv.of_plus (hs : s.Inv) {x : ℕ} {t : DCache} (h : s.Plus x t) : t.Inv := by
  cases h with
  | bumped k hk hx => exact hs.of_bump hk hx
  | built k v d n hd hx hv hxk hvk => exact hs.of_addDentry hd hx hv hxk hvk

end DCache

/-! ## One component of the walk -/

namespace DCache

variable {s : DCache}

theorem dentryLookup_of_none {mp : Mount} {path : List Char}
    (h : s.hash.find? (s.cachedAs mp path) = none) : s.dentryLookup mp path = (none, s) := by
  rw [dentryLookup, h]

theorem dentryLookup_of_some {mp : Mount} {path : List Char} {x : ℕ}
    (h : s.hash.find? (s.cachedAs mp path) = some x) :
    s.dentryLookup mp path = (some x, s.bump x) := by
  rw [dentryLookup, h]

end DCache

open DCache

/-- **One component balances its references.**  From a cache with one reference more on the
directory `ddp`, a step ends with an error and `s` back, or with one reference more on the
child instead. -/
theorem nameiStep_balanced {env : Env} {mp : Mount} {node name : List Char} {ddp : ℕ}
    {s cur : DCache} (hs : s.Inv) (hc : cur.Inv) (hp : s.Plus ddp cur) :
    ∃ r t, nameiStep env mp node name ddp cur = some (r, t) ∧
      ((∃ e, r = .error e ∧ s.Same t) ∨ (∃ x, r = .ok x ∧ s.Plus x t)) := by
  -- the directory's reference dropped from `cur` with more addresses spent gives `s` back
  have hback : ∀ k, { cur with next := k }.drele ddp = some { s with next := k } := fun k => by
    rw [drele_next, hp.drele hs]
    rfl
  have hnext := hp.next_le
  obtain ⟨dd, hdd⟩ := Option.isSome_iff_exists.mp (hp.dentry_isSome hs)
  unfold nameiStep
  rcases hl : cur.hash.find? (cur.cachedAs mp node) with _ | x
  · rw [dentryLookup_of_none hl]
    dsimp only
    cases hf : env.allocFails cur.next
    · -- `vget` made the vnode `cur.next`; the directory's vnode is an older one
      rw [vget_of_not_fails hf]
      dsimp only
      obtain ⟨-, -, hfv, hfvc, hfn⟩ := hc.fresh cur.next (Nat.le_refl _)
      obtain ⟨dvp, hdvp⟩ := Option.isSome_iff_exists.mp (hc.named ddp dd hdd).1
      have hne : dd.vnode ≠ cur.next := hc.vnode_ne hdd (Nat.le_refl _)
      have hdir : ((cur.addVnode cur.next ⟨mp, node, .VNON⟩).dentry ddp).bind
          (fun d => (cur.addVnode cur.next ⟨mp, node, .VNON⟩).vnode d.vnode) = some dvp := by
        simp only [addVnode, hdd, Option.bind_some, update_of_ne hne, hdvp]
      rw [hdir]
      dsimp only
      rcases hfs : env.fsLookup dvp.path name with e | t <;> dsimp only
      · -- `VOP_LOOKUP` failed
        rw [vput_addVnode _ _ hfv hfvc hfn, Option.bind_some, hback]
        exact ⟨_, _, rfl, .inl ⟨e, rfl, .next_le _ (by omega)⟩⟩
      · rw [setType_addVnode]
        dsimp only
        cases hf2 : env.allocFails (cur.next + 1)
        · -- `dentry_alloc` made the dentry `cur.next + 1`
          obtain ⟨w, hw, hwv⟩ := @vput_dentryAlloc cur env cur.next (cur.next + 1)
            ⟨mp, node, t⟩ node hf2
          have hlt := hc.lt_next (hp.dentry_isSome hs)
          rw [hw]
          dsimp only
          rw [hwv, Option.bind_some, drele_next,
            drele_addDentry_of_ne (by omega) (fun d hd => hc.vnode_ne hd (Nat.le_refl _)),
            hp.drele hs]
          exact ⟨_, _, rfl, .inr ⟨cur.next + 1, rfl,
            .built _ _ _ _ rfl (by omega) (by omega) (by omega) (by omega)⟩⟩
        · -- `dentry_alloc` failed
          simp only [dentryAlloc, hf2, ↓reduceIte]
          rw [vput_addVnode _ _ hfv hfvc hfn, Option.bind_some, hback]
          exact ⟨_, _, rfl, .inl ⟨ENOMEM, rfl, .next_le _ (by omega)⟩⟩
    · -- `vget` failed
      rw [vget_of_fails hf]
      dsimp only
      rw [hback]
      exact ⟨_, _, rfl, .inl ⟨ENOMEM, rfl, .next_le _ (by omega)⟩⟩
  · -- `dentry_lookup` found the child
    rw [dentryLookup_of_some hl]
    have hxh : x ∈ cur.hash := List.mem_of_find?_eq_some hl
    dsimp only
    by_cases hx : x = ddp
    · -- the child is the directory itself: the reference more stays on it
      subst hx
      have hd := hp.dentry_isSome hs
      refine ⟨.ok x, cur, ?_, .inr ⟨x, rfl, hp⟩⟩
      rw [drele_bump_self hd (hc.dcount_pos x hd)]
      rfl
    · refine ⟨.ok x, { s.bump x with next := cur.next }, ?_,
        .inr ⟨x, rfl, .bumped _ hnext (hp.mem_hash hxh hx)⟩⟩
      rw [drele_bump_of_ne (Ne.symm hx), hp.drele hs]
      rfl

/-! ## The walk -/

theorem nameiLoop_of_slashes {env : Env} {mp : Mount} {fuel : ℕ} {p node : List Char} {ddp : ℕ}
    {dp : Option ℕ} {s : DCache} (hs : ∀ c ∈ p, c = '/') :
    nameiLoop env mp fuel p node ddp dp s = some (.ok dp, s) := by
  have hnil : p.dropWhile (· = '/') = [] :=
    List.dropWhile_eq_nil_iff.mpr fun c hc => by simpa using hs c hc
  -- the slashes are skipped before the fuel is looked at
  cases fuel <;> exact if_pos hnil

/-- What is left after a component is shorter than the path it was taken from. -/
theorem length_rest_lt {p : List Char} (h : p.dropWhile (· = '/') ≠ []) :
    ((p.dropWhile (· = '/')).dropWhile (· ≠ '/')).length < p.length := by
  have hhead := List.head_dropWhile_not (· = '/') h
  have hle := List.length_dropWhile_le (· = '/') p
  revert h hhead hle
  generalize p.dropWhile (· = '/') = q
  intro h hhead hle
  cases q with
  | nil => exact absurd rfl h
  | cons c q =>
    have hc : c ≠ '/' := of_decide_eq_false hhead
    rw [List.dropWhile_cons_of_pos (by simpa using hc)]
    have := List.length_dropWhile_le (· ≠ '/') q
    simp only [List.length_cons] at hle
    omega

/-- **The walk balances its references.**  From a cache with one reference more on the
directory `ddp`, and a last dentry that is `ddp` or a component still to walk, the loop ends
with an error and `s` back, or with a dentry and one reference more on it.  By induction on the
fuel, which the rest of the path never outgrows. -/
theorem nameiLoop_balanced {env : Env} {mp : Mount} {s : DCache} (hs : s.Inv) :
    ∀ (fuel : ℕ) (p node : List Char) (ddp : ℕ) (dp : Option ℕ) (cur : DCache),
      cur.Inv → s.Plus ddp cur → (dp = some ddp ∨ ∃ c ∈ p, c ≠ '/') → p.length ≤ fuel →
      ∃ r t, nameiLoop env mp fuel p node ddp dp cur = some (r, t) ∧
        ((∃ e, r = .error e ∧ s.Same t) ∨ (∃ x, r = .ok (some x) ∧ s.Plus x t)) := by
  intro fuel
  induction fuel with
  | zero =>
    intro p node ddp dp cur hc hp hdp hlen
    have hnil : p = [] := List.eq_nil_of_length_eq_zero (Nat.le_zero.mp hlen)
    subst hnil
    rcases hdp with rfl | ⟨c, hc, -⟩
    · exact ⟨_, _, nameiLoop_of_slashes (by simp), .inr ⟨ddp, rfl, hp⟩⟩
    · cases hc
  | succ fuel ih =>
    intro p node ddp dp cur hc hp hdp hlen
    by_cases hnil : p.dropWhile (· = '/') = []
    · -- nothing left to walk: the last dentry is the directory
      have hsl : ∀ c ∈ p, c = '/' := fun c hc => by
        simpa using List.dropWhile_eq_nil_iff.mp hnil c hc
      rcases hdp with rfl | ⟨c, hc, hne⟩
      · exact ⟨_, _, nameiLoop_of_slashes hsl, .inr ⟨ddp, rfl, hp⟩⟩
      · exact absurd (hsl c hc) hne
    · rw [nameiLoop.eq_def]
      dsimp only
      rw [if_neg hnil]
      obtain ⟨r, t, hstep, hres⟩ := @nameiStep_balanced env mp
        (node ++ '/' :: (p.dropWhile (· = '/')).takeWhile (· ≠ '/'))
        ((p.dropWhile (· = '/')).takeWhile (· ≠ '/')) ddp s cur hs hc hp
      rw [hstep]
      rcases hres with ⟨e, rfl, hsame⟩ | ⟨x, rfl, hplus⟩
      · exact ⟨_, _, rfl, .inl ⟨e, rfl, hsame⟩⟩
      · -- the child found or built: its type decides whether the walk goes on
        have ht := hs.of_plus hplus
        obtain ⟨dx, hdx⟩ := Option.isSome_iff_exists.mp (hplus.dentry_isSome hs)
        obtain ⟨nx, hnx⟩ := Option.isSome_iff_exists.mp (ht.named x dx hdx).1
        have hty : t.vtypeOf x = some nx.type := by simp [DCache.vtypeOf, hdx, hnx]
        dsimp only
        rw [hty]
        dsimp only
        split_ifs
        · rw [hplus.drele hs]
          exact ⟨_, _, rfl, .inl ⟨ENOTDIR, rfl, .next_le _ hplus.next_le⟩⟩
        · have hrest := length_rest_lt hnil
          exact ih _ _ x (some x) t ht hplus (.inl rfl) (by omega)

/-- A result of the walk keeps the invariant. -/
theorem DCache.Inv.of_result {s : DCache} (hs : s.Inv) {r : Except ℕ (Option ℕ)} {t : DCache}
    (h : (∃ e, r = .error e ∧ s.Same t) ∨ (∃ x, r = .ok (some x) ∧ s.Plus x t)) : t.Inv := by
  rcases h with ⟨_, _, h⟩ | ⟨_, _, h⟩
  · exact hs.of_same h
  · exact hs.of_plus h

/-- **`namei` balances its references.**  From a cache with the invariant, whose mounts have
their root dentries cached under `/`, on a path whose rest after the mount point is empty or
names a component, `namei` returns: an error with the cache as it was, or a dentry with one
reference more on it and every other count and list as it was; the invariant holds after. -/
theorem namei_balanced {env : Env} {s : DCache} {path : List Char} (hs : s.Inv)
    (hroots : ∀ m ∈ env.mounts, ∃ d, s.dentry m.mRoot = some d ∧ d.mount = m ∧
      d.path = "/".toList)
    (hpath : ∀ m p, vfsFindroot env.mounts path = some (m, p) → p = [] ∨ ∃ c ∈ p, c ≠ '/') :
    ∃ r t, namei env s path = some (r, t) ∧ t.Inv ∧
      ((∃ e, r = .error e ∧ s.Same t) ∨ (∃ x, r = .ok (some x) ∧ s.Plus x t)) := by
  unfold namei
  rcases hf : vfsFindroot env.mounts path with _ | ⟨m, p⟩
  · exact ⟨_, _, rfl, hs, .inl ⟨ENOTDIR, rfl, .next_le s.next (Nat.le_refl _)⟩⟩
  · dsimp only
    obtain ⟨d, hd, hdm, hdp⟩ := hroots m (vfsFindroot_mem hf)
    have hroot : (s.dentry m.mRoot).isSome := by rw [hd]; rfl
    have hmem : m.mRoot ∈ s.hash := (hs.mem_hash _).mpr hroot
    rcases hl : s.hash.find? (s.cachedAs m ('/' :: p)) with _ | x
    · -- nothing cached under the whole path: the walk from the root dentry
      rw [DCache.dentryLookup_of_none hl]
      dsimp only
      -- the root dentry is cached under `/`, so the rest is not empty
      have hcomp : ∃ c ∈ p, c ≠ '/' := by
        rcases hpath m p hf with rfl | h
        · have := List.find?_eq_none.mp hl m.mRoot hmem
          simp [DCache.cachedAs, hd, hdm, hdp] at this
        · exact h
      rw [DCache.dref, if_pos ⟨hroot, hs.dcount_pos _ hroot⟩, Option.bind_some]
      obtain ⟨r, t, hloop, hres⟩ := nameiLoop_balanced hs p.length p [] m.mRoot none
        (s.bump m.mRoot) (hs.of_bump (Nat.le_refl _) hmem) (.bumped _ (Nat.le_refl _) hmem)
        (.inr hcomp) (Nat.le_refl _)
      exact ⟨r, t, hloop, hs.of_result hres, hres⟩
    · -- a dentry cached under the whole path
      rw [DCache.dentryLookup_of_some hl]
      have hx := List.mem_of_find?_eq_some hl
      exact ⟨_, _, rfl, hs.of_bump (Nat.le_refl _) hx, .inr ⟨x, rfl, .bumped _ (Nat.le_refl _) hx⟩⟩

/-! ## The walk that finds no component -/

/-- **`namei` of a rest of nothing but slashes.**  With no dentry cached under `/` and those
slashes, `namei` returns `0` with the null dentry, and the root dentry keeps the reference the
walk took. -/
theorem namei_only_slashes {env : Env} {s : DCache} {path p : List Char} {mp : Mount}
    (hf : vfsFindroot env.mounts path = some (mp, p)) (hs : ∀ c ∈ p, c = '/')
    (hnone : s.hash.find? (s.cachedAs mp ('/' :: p)) = none)
    (hroot : (s.dentry mp.mRoot).isSome ∧ 0 < s.dcount mp.mRoot) :
    namei env s path = some (.ok none, s.bump mp.mRoot) := by
  rw [namei, hf]
  simp only [DCache.dentryLookup_of_none hnone]
  rw [DCache.dref, if_pos hroot, Option.bind_some, nameiLoop_of_slashes hs]

/-- The root mount. -/
def rootMount : Mount := ⟨"/".toList, 0⟩

/-- A cache holding the root dentry `0`, with one reference, on the root directory's vnode `1`. -/
def rootCache : DCache :=
  ⟨update (fun _ => none) 0 (some ⟨rootMount, "/".toList, 1⟩), update (fun _ => 0) 0 1,
    update (fun _ => none) 1 (some ⟨rootMount, "/".toList, .VDIR⟩), update (fun _ => 0) 1 1,
    update (fun _ => []) 1 [0], [0], 2⟩

/-- The root mount alone, a file system with nothing in it, and no allocation failing. -/
def rootEnv : Env := ⟨[rootMount], fun _ _ => .error ENOENT, fun _ => false⟩

/-- The root cache has the invariant. -/
theorem rootCache_inv : rootCache.Inv where
  hash_nodup := by decide
  mem_hash x := by by_cases hx : x = 0 <;> simp [rootCache, hx]
  dcount_pos x := by by_cases hx : x = 0 <;> simp [rootCache, hx]
  named x d := by
    by_cases hx : x = 0
    · subst hx
      rintro ⟨⟩
      simp [rootCache]
    · simp [rootCache, hx]
  names_nodup v := by by_cases hv : v = 1 <;> simp [rootCache, hv]
  names_le v := by by_cases hv : v = 1 <;> simp [rootCache, hv]
  fresh x hx := by
    have h0 : x ≠ 0 := by simp [rootCache] at hx; omega
    have h1 : x ≠ 1 := by simp [rootCache] at hx; omega
    simp [rootCache, h0, h1]

theorem namei_only_slashes_root :
    rootCache.Inv ∧ vfsFindroot rootEnv.mounts "///".toList = some (rootMount, "/".toList) ∧
      (∀ c ∈ "/".toList, c = '/') ∧
      rootCache.hash.find? (rootCache.cachedAs rootMount ('/' :: "/".toList)) = none ∧
      ((rootCache.dentry rootMount.mRoot).isSome ∧ 0 < rootCache.dcount rootMount.mRoot) ∧
      namei rootEnv rootCache "///".toList = some (.ok none, rootCache.bump rootMount.mRoot) :=
  ⟨rootCache_inv, by decide, by simp, by decide, by decide,
    @namei_only_slashes rootEnv rootCache _ "/".toList rootMount (by decide) (by simp)
      (by decide) (by decide)⟩

end Osv.Vfs
