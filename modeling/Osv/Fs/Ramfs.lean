import Osv.Lib.Transition

/-!
# ramfs

The vnode operations of the in-memory file system (`fs/ramfs/ramfs_vnops.cc`).  A
`ramfs_node` holds its name and type, the list of its children through `rn_child` and
`rn_next`, and for a file a buffer `rn_buf` of `rn_bufsize` bytes of which the first `rn_size`
are the file.  The vnode the VFS holds for a node keeps its own copy of the size, `v_size`,
which `ramfs_lookup` sets from `rn_size`.

**The model.**  The nodes are a heap by address, with the root, `"/"`, at 0 as `ramfs_mount`
allocates it.  Each vnode operation is a function of the state and the arguments the VFS passes,
and returns the new state or an error.  What `malloc` returns for a new buffer is uninitialised:
here a buffer of the byte `junk`, which the caller chooses.  `ramfs_free_node` is not modelled
(a freed node is just no longer linked), nor are allocation failures.

**What holds.**  Reading back a range just written returns the bytes written
(`ramfsRead_ramfsWrite`).

**What does not** (`ramfs_stale_bytes_and_rename_type`).  A truncate that shrinks a file only
lowers `rn_size`, and one that grows it within `rn_bufsize` only raises it: the bytes past the
smaller size come back instead of zeros.  A rename across directories makes a new `VREG` node
whatever the source was (`ramfsRename_cross_type`), so a directory renamed into another one
becomes an empty regular file and loses its children.
-/

namespace Osv.Fs

open Transition

/-! ## Constants -/

/-- `enum vtype`. -/
inductive VType
  | VNON | VREG | VDIR | VBLK | VCHR | VLNK | VSOCK | VFIFO | VBAD
  deriving DecidableEq, Repr, Inhabited

def ENOENT : ℕ := 2
def EIO : ℕ := 5
def EBUSY : ℕ := 16
def EISDIR : ℕ := 21
def EINVAL : ℕ := 22

/-- `IO_APPEND` of `ioflag`. -/
def IO_APPEND : ℕ := 0x0001

def S_IFMT : ℕ := 0o170000
def S_IFDIR : ℕ := 0o040000
def S_IFREG : ℕ := 0o100000

def PAGE_SIZE : ℕ := 4096

/-- `round_page(x)`: `(x + PAGE_MASK) & ~PAGE_MASK`. -/
def roundPage (x : ℕ) : ℕ := (x + (PAGE_SIZE - 1)) / PAGE_SIZE * PAGE_SIZE

/-! ## Nodes -/

/-- A `ramfs_node`.  `buf` is `none` for a null `rn_buf`. -/
structure RamfsNode where
  next : Option ℕ
  child : Option ℕ
  type : VType
  name : String
  size : ℕ
  buf : Option (List UInt8)
  bufsize : ℕ
  deriving DecidableEq, Repr, Inhabited

/-- `ramfs_allocate_node(name, type)`: a zeroed node with its name and type. -/
def allocateNode (name : String) (type : VType) : RamfsNode :=
  ⟨none, none, type, name, 0, none, 0⟩

/-- The nodes by address, the next address to allocate, and `v_size` of each node's vnode. -/
structure RamfsState where
  store : ℕ → RamfsNode
  nextId : ℕ
  vsize : ℕ → ℕ

/-- The file system `ramfs_mount` creates: the root directory `"/"` at 0. -/
def RamfsState.init : RamfsState :=
  ⟨fun i => if i = 0 then allocateNode "/" .VDIR else default, 1, fun _ => 0⟩

namespace RamfsState

/-- A store to the node at `i`. -/
def set (s : RamfsState) (i : ℕ) (n : RamfsNode) : RamfsState :=
  { s with store := fun j => if j = i then n else s.store j }

variable {s : RamfsState} {i j : ℕ} {n : RamfsNode}

@[simp] theorem store_set_self : (s.set i n).store i = n := by simp [set]

@[simp] theorem store_set_ne (hji : j ≠ i) : (s.set i n).store j = s.store j := by
  simp [set, hji]

theorem type_store_set : ((s.set i n).store j).type = if j = i then n.type else (s.store j).type := by
  by_cases hji : j = i <;> simp [hji]

theorem child_store_set :
    ((s.set i n).store j).child = if j = i then n.child else (s.store j).child := by
  by_cases hji : j = i <;> simp [hji]

@[simp] theorem vsize_set : (s.set i n).vsize = s.vsize := rfl

@[simp] theorem nextId_set : (s.set i n).nextId = s.nextId := rfl

/-- The loop `while (prev->rn_next != NULL) prev = prev->rn_next`, with fuel: the last node of
a directory list. -/
def lastOf (s : RamfsState) : ℕ → ℕ → ℕ
  | 0, p => p
  | fuel + 1, p =>
      match (s.store p).next with
      | some q => lastOf s fuel q
      | none => p

/-- `ramfs_add_node(dnp, name, type)`: a new node linked at the end of the directory's list. -/
def addNode (s : RamfsState) (dnp : ℕ) (name : String) (type : VType) : RamfsState × ℕ :=
  let np := s.nextId
  let s := { s with nextId := np + 1 }.set np (allocateNode name type)
  match (s.store dnp).child with
  | none => (s.set dnp { s.store dnp with child := some np }, np)
  | some c =>
      let prev := s.lastOf s.nextId c
      (s.set prev { s.store prev with next := some np }, np)

/-- The loop of `ramfs_remove_node` that looks for the node before `np`, with fuel. -/
def findPrev (s : RamfsState) (np : ℕ) : ℕ → ℕ → Option ℕ
  | 0, _ => none
  | fuel + 1, prev =>
      if (s.store prev).next = some np then some prev
      else
        match (s.store prev).next with
        | none => none
        | some q => findPrev s np fuel q

/-- `ramfs_remove_node(dnp, np)`: unlink the node from the directory's list. -/
def removeNode (s : RamfsState) (dnp np : ℕ) : Except ℕ RamfsState :=
  match (s.store dnp).child with
  | none => .error EBUSY
  | some c =>
      if c = np then .ok (s.set dnp { s.store dnp with child := (s.store np).next })
      else
        match s.findPrev np s.nextId c with
        | none => .error ENOENT
        | some prev => .ok (s.set prev { s.store prev with next := (s.store np).next })

/-- `ramfs_rename_node(np, name)`. -/
def renameNode (s : RamfsState) (np : ℕ) (name : String) : RamfsState :=
  s.set np { s.store np with name := name }

/-- The loop of `ramfs_lookup` over a directory's list, with fuel. -/
def findChild (s : RamfsState) (name : String) : ℕ → Option ℕ → Option ℕ
  | 0, _ => none
  | _ + 1, none => none
  | fuel + 1, some np =>
      if (s.store np).name = name then some np else findChild s name fuel (s.store np).next

/-- `ramfs_lookup(dvp, name, vp)`: the node, whose size the vnode takes. -/
def ramfsLookup (s : RamfsState) (dvp : ℕ) (name : String) : Except ℕ (RamfsState × ℕ) :=
  if name = "" then .error ENOENT
  else
    match s.findChild name s.nextId (s.store dvp).child with
    | none => .error ENOENT
    | some np => .ok ({ s with vsize := fun j => if j = np then (s.store np).size else s.vsize j }, np)

/-- `ramfs_mkdir(dvp, name, mode)`. -/
def ramfsMkdir (s : RamfsState) (dvp : ℕ) (name : String) (mode : ℕ) : Except ℕ RamfsState :=
  if mode &&& S_IFMT ≠ S_IFDIR then .error EINVAL
  else
    let r := s.addNode dvp name .VDIR
    .ok (r.1.set r.2 { r.1.store r.2 with size := 0 })

/-- `ramfs_create(dvp, name, mode)`. -/
def ramfsCreate (s : RamfsState) (dvp : ℕ) (name : String) (mode : ℕ) : Except ℕ RamfsState :=
  if mode &&& S_IFMT ≠ S_IFREG then .error EINVAL
  else .ok (s.addNode dvp name .VREG).1

/-! ## File data -/

/-- `memcpy(dst, src, n)`. -/
def memcpy (dst src : List UInt8) (n : ℕ) : List UInt8 :=
  (List.range n).map (fun k => src.getD k 0) ++ dst.drop n

/-- A new buffer of `roundPage len` bytes holding, if the file has data, its first `v_size`
bytes: what `ramfs_truncate` and `ramfs_write` put in place of `rn_buf` when it is too small. -/
def growBuf (s : RamfsState) (vp len : ℕ) (junk : UInt8) : RamfsNode :=
  let np := s.store vp
  let fresh := List.replicate (roundPage len) junk
  { np with
    buf := some (if np.size ≠ 0 then memcpy fresh (np.buf.getD []) (s.vsize vp) else fresh)
    bufsize := roundPage len }

/-- `ramfs_truncate(vp, length)`. -/
def ramfsTruncate (s : RamfsState) (vp length : ℕ) (junk : UInt8) : RamfsState :=
  let np : RamfsNode :=
    if length = 0 then
      if (s.store vp).buf.isSome then { s.store vp with buf := none, bufsize := 0 } else s.store vp
    else if (s.store vp).bufsize < length then s.growBuf vp length junk
    else s.store vp
  { s.set vp { np with size := length } with
    vsize := fun j => if j = vp then length else s.vsize j }

/-- `uiomove` into the buffer at `off`. -/
def writeAt (buf data : List UInt8) (off : ℕ) : List UInt8 :=
  buf.take off ++ data ++ buf.drop (off + data.length)

/-- `ramfs_read(vp, uio)` of `resid` bytes at `off`: the bytes read. -/
def ramfsRead (s : RamfsState) (vp off resid : ℕ) : Except ℕ (List UInt8) :=
  if (s.store vp).type = .VDIR then .error EISDIR
  else if (s.store vp).type ≠ .VREG then .error EINVAL
  else if resid = 0 then .ok []
  else if s.vsize vp ≤ off then .ok []
  else
    let len := if s.vsize vp - off < resid then s.vsize vp - off else resid
    .ok ((List.range len).map fun k => ((s.store vp).buf.getD []).getD (off + k) 0)

/-- The expansion `ramfs_write` makes before writing up to `endPos` past `v_size`: a larger
buffer if `rn_bufsize` is too small, and both sizes set to `endPos`. -/
def expandTo (s : RamfsState) (vp endPos : ℕ) (junk : UInt8) : RamfsState :=
  if s.vsize vp < endPos then
    let np := if (s.store vp).bufsize < endPos then s.growBuf vp endPos junk else s.store vp
    { s.set vp { np with size := endPos } with
      vsize := fun j => if j = vp then endPos else s.vsize j }
  else s

/-- `ramfs_write(vp, uio, ioflag)` of `data` at `off`. -/
def ramfsWrite (s : RamfsState) (vp off : ℕ) (data : List UInt8) (ioflag : ℕ) (junk : UInt8) :
    Except ℕ RamfsState :=
  if (s.store vp).type = .VDIR then .error EISDIR
  else if (s.store vp).type ≠ .VREG then .error EINVAL
  else if data = [] then .ok s
  else
    let off := if ioflag &&& IO_APPEND ≠ 0 then (s.store vp).size else off
    let s := s.expandTo vp (off + data.length) junk
    .ok (s.set vp { s.store vp with buf := some (writeAt ((s.store vp).buf.getD []) data off) })

/-- `ramfs_rename(dvp1, vp1, name1, dvp2, vp2, name2)`, with `vp2` the vnode of an existing
destination. -/
def ramfsRename (s : RamfsState) (dvp1 vp1 dvp2 : ℕ) (vp2 : Option ℕ) (name2 : String) :
    Except ℕ RamfsState := do
  -- remove the destination file first
  let s ← match vp2 with
    | some v2 => s.removeNode dvp2 v2
    | none => .ok s
  if dvp1 = dvp2 then .ok (s.renameNode vp1 name2)
  else
    let r := s.addNode dvp2 name2 .VREG
    let old := r.1.store vp1
    let s := if old.type = .VREG then
        (r.1.set r.2 { r.1.store r.2 with buf := old.buf, size := old.size, bufsize := old.bufsize }).set
          vp1 { old with buf := none }
      else r.1
    -- the result of removing the source is not checked
    match s.removeNode dvp1 vp1 with
    | .ok s => .ok s
    | .error _ => .ok s

end RamfsState

/-! ## Operations as the VFS issues them -/

/-- A vnode operation with its arguments: nodes are named by address. -/
inductive RamfsOp
  | create (dvp : ℕ) (name : String) (mode : ℕ)
  | mkdir (dvp : ℕ) (name : String) (mode : ℕ)
  | lookup (dvp : ℕ) (name : String)
  | write (vp off : ℕ) (data : List UInt8) (ioflag : ℕ) (junk : UInt8)
  | truncate (vp length : ℕ) (junk : UInt8)
  | remove (dvp vp : ℕ)
  | rmdir (dvp vp : ℕ)
  | rename (dvp1 vp1 dvp2 : ℕ) (vp2 : Option ℕ) (name2 : String)
  deriving DecidableEq, Repr

/-- One operation: the new state, or `none` when it returns an error. -/
def RamfsState.step (s : RamfsState) : RamfsOp → Option RamfsState
  | .create dvp name mode => (s.ramfsCreate dvp name mode).toOption
  | .mkdir dvp name mode => (s.ramfsMkdir dvp name mode).toOption
  | .lookup dvp name => ((s.ramfsLookup dvp name).map Prod.fst).toOption
  | .write vp off data ioflag junk => (s.ramfsWrite vp off data ioflag junk).toOption
  | .truncate vp length junk => some (s.ramfsTruncate vp length junk)
  | .remove dvp vp => (s.removeNode dvp vp).toOption
  | .rmdir dvp vp => (s.removeNode dvp vp).toOption
  | .rename dvp1 vp1 dvp2 vp2 name2 => (s.ramfsRename dvp1 vp1 dvp2 vp2 name2).toOption

/-! ## What a file should be

The specification the code is checked against: a regular file is a byte array, grown with zeros. -/

/-- Truncating a byte array to `len` bytes. -/
def specTruncate (c : List UInt8) (len : ℕ) : List UInt8 :=
  c.take len ++ List.replicate (len - c.length) 0

/-- Writing `data` at `off` into a byte array. -/
def specWrite (c : List UInt8) (off : ℕ) (data : List UInt8) : List UInt8 :=
  RamfsState.writeAt (c ++ List.replicate (off + data.length - c.length) 0) data off

/-- Reading `resid` bytes at `off`. -/
def specRead (c : List UInt8) (off resid : ℕ) : List UInt8 := (c.drop off).take resid

/-! ## Reading back a write -/

namespace RamfsState

theorem getD_writeAt {buf data : List UInt8} {off k : ℕ} (hoff : off ≤ buf.length)
    (hk : k < data.length) : (writeAt buf data off).getD (off + k) 0 = data.getD k 0 := by
  have htake : (buf.take off).length = off := List.length_take_of_le hoff
  rw [writeAt, List.append_assoc, List.getD_eq_getElem?_getD, List.getElem?_append_right (by omega),
    htake, Nat.add_sub_cancel_left, List.getElem?_append_left hk, ← List.getD_eq_getElem?_getD]

theorem length_memcpy {dst src : List UInt8} {n : ℕ} (h : n ≤ dst.length) :
    (memcpy dst src n).length = dst.length := by
  simp only [memcpy, List.length_append, List.length_map, List.length_range, List.length_drop]
  omega

theorem le_roundPage (x : ℕ) : x ≤ roundPage x := by
  unfold roundPage PAGE_SIZE
  omega

/-- A grown buffer holds at least the bytes asked for. -/
theorem length_growBuf {s : RamfsState} {vp len : ℕ} {junk : UInt8} (hv : s.vsize vp ≤ len) :
    len ≤ ((s.growBuf vp len junk).buf.getD []).length := by
  have hlen := le_roundPage len
  unfold growBuf
  dsimp only
  split
  · rw [Option.getD_some, length_memcpy (by simp; omega), List.length_replicate]
    exact hlen
  · rw [Option.getD_some, List.length_replicate]
    exact hlen

section Expand

variable {s : RamfsState} {vp endPos : ℕ} {junk : UInt8}

theorem type_expandTo : ((s.expandTo vp endPos junk).store vp).type = (s.store vp).type := by
  unfold expandTo
  split
  · dsimp only
    rw [store_set_self]
    split
    · rfl
    · rfl
  · rfl

/-- After the expansion the vnode size reaches the end of the write. -/
theorem vsize_expandTo : endPos ≤ (s.expandTo vp endPos junk).vsize vp := by
  unfold expandTo
  split
  · simp
  · omega

/-- After the expansion the buffer holds the end of the write. -/
theorem length_expandTo (hbuf : ((s.store vp).buf.getD []).length = (s.store vp).bufsize)
    (hv : s.vsize vp ≤ (s.store vp).bufsize) :
    endPos ≤ (((s.expandTo vp endPos junk).store vp).buf.getD []).length := by
  unfold expandTo
  by_cases hgrow : s.vsize vp < endPos
  · rw [if_pos hgrow]
    dsimp only
    rw [store_set_self]
    by_cases hsmall : (s.store vp).bufsize < endPos
    · rw [if_pos hsmall]
      exact length_growBuf (by omega)
    · rw [if_neg hsmall]
      show endPos ≤ ((s.store vp).buf.getD []).length
      omega
  · rw [if_neg hgrow]
    omega

end Expand

theorem map_getD_range (data : List UInt8) :
    (List.range data.length).map (fun k => data.getD k 0) = data := by
  apply List.ext_getElem (by simp)
  intro k h₁ h₂
  simp [List.getD_eq_getElem?_getD, List.getElem?_eq_getElem h₂]

/-- **Read after write.**  On a regular file whose buffer holds `rn_bufsize` bytes and whose
vnode size is within it, reading back the range a write covered returns the bytes written. -/
theorem ramfsRead_ramfsWrite {s s' : RamfsState} {vp off : ℕ} {data : List UInt8} {junk : UInt8}
    (hreg : (s.store vp).type = .VREG) (hne : data ≠ [])
    (hbuf : ((s.store vp).buf.getD []).length = (s.store vp).bufsize)
    (hv : s.vsize vp ≤ (s.store vp).bufsize)
    (hw : s.ramfsWrite vp off data 0 junk = .ok s') :
    s'.ramfsRead vp off data.length = .ok data := by
  have hdir : (s.store vp).type ≠ .VDIR := by rw [hreg]; decide
  have hlen : 0 < data.length := List.length_pos_iff.mpr hne
  have hw' : s' = (s.expandTo vp (off + data.length) junk).set vp
      { (s.expandTo vp (off + data.length) junk).store vp with
        buf := some (writeAt (((s.expandTo vp (off + data.length) junk).store vp).buf.getD [])
          data off) } := by
    simp only [ramfsWrite, if_neg hdir, if_neg (show ¬ ((s.store vp).type ≠ .VREG) from
      not_not.mpr hreg), if_neg hne, Nat.zero_and, ne_eq, not_true_eq_false, if_false,
      Except.ok.injEq] at hw
    exact hw.symm
  subst hw'
  -- the expansion made room for the write and moved the vnode size past it
  have hsize : off + data.length ≤ (s.expandTo vp (off + data.length) junk).vsize vp :=
    vsize_expandTo
  have hroom : off + data.length ≤
      (((s.expandTo vp (off + data.length) junk).store vp).buf.getD []).length :=
    length_expandTo hbuf hv
  have htype : ((s.expandTo vp (off + data.length) junk).store vp).type = (s.store vp).type :=
    type_expandTo
  have hdir' : ¬ ((s.expandTo vp (off + data.length) junk).store vp).type = .VDIR := by
    rw [htype]; exact hdir
  have hnot : ¬ (((s.expandTo vp (off + data.length) junk).store vp).type ≠ .VREG) :=
    not_not.mpr (htype.trans hreg)
  simp only [ramfsRead, store_set_self, vsize_set, if_neg hdir', if_neg hnot,
    if_neg (Nat.pos_iff_ne_zero.mp hlen),
    if_neg (show ¬ (s.expandTo vp (off + data.length) junk).vsize vp ≤ off by omega),
    Option.getD_some]
  -- the read is as long as the write
  have hfull : ¬ (s.expandTo vp (off + data.length) junk).vsize vp - off < data.length := by
    omega
  simp only [hfull, if_false]
  congr 1
  conv_rhs => rw [← map_getD_range data]
  exact List.map_congr_left fun k hk => getD_writeAt (by omega) (List.mem_range.mp hk)

/-- The file `f` created in the root and written with two bytes. -/
def twoBytes : RamfsState :=
  (runFrom step init [.create 0 "f" S_IFREG, .lookup 0 "f", .write 1 0 [0x41, 0x42] 0 0]).getD init

/-- The file written again with three bytes across the end of its page: the buffer grows past
its page, keeping the two bytes, and the three bytes read back. -/
theorem ramfsRead_ramfsWrite_across_page :
    runFrom step init [.create 0 "f" S_IFREG, .lookup 0 "f", .write 1 0 [0x41, 0x42] 0 0] =
        some twoBytes ∧
      (twoBytes.store 1).type = .VREG ∧
      ((twoBytes.store 1).buf.getD []).length = (twoBytes.store 1).bufsize ∧
      twoBytes.vsize 1 ≤ (twoBytes.store 1).bufsize ∧ (twoBytes.store 1).bufsize = 4096 ∧
      ∃ s', twoBytes.ramfsWrite 1 4094 [1, 2, 3] 0 0 = .ok s' ∧ s'.ramfsRead 1 4094 3 = .ok [1, 2, 3] :=
  ⟨rfl, by decide, by decide +kernel, by decide, by decide, _, rfl,
    @ramfsRead_ramfsWrite twoBytes _ 1 4094 [1, 2, 3] 0 (by decide) (by decide) (by decide +kernel)
      (by decide) rfl⟩

/-! ## Rename across directories -/

section Rename

variable {s s' : RamfsState}

/-- `ramfs_add_node` makes the new node at `nextId`, of the type asked for and without
children: linking it only changes the directory's `rn_child` or the last node's `rn_next`. -/
theorem addNode_new {dnp : ℕ} {name : String} {type : VType} (hd : dnp < s.nextId) :
    (s.addNode dnp name type).2 = s.nextId ∧
      ((s.addNode dnp name type).1.store s.nextId).type = type ∧
      ((s.addNode dnp name type).1.store s.nextId).child = none := by
  have hne : s.nextId ≠ dnp := by omega
  unfold addNode
  dsimp only
  split
  · rw [store_set_ne hne, store_set_self]
    exact ⟨rfl, rfl, rfl⟩
  · -- the last node of the list may be any node: only its `rn_next` changes
    refine ⟨rfl, ?_, ?_⟩
    · rw [type_store_set]
      split
      · rename_i hp
        rw [← hp, store_set_self]
        rfl
      · rw [store_set_self]
        rfl
    · rw [child_store_set]
      split
      · rename_i hp
        rw [← hp, store_set_self]
        rfl
      · rw [store_set_self]
        rfl

/-- Unlinking a node changes no node's type, and no `rn_child` but the directory's. -/
theorem removeNode_store {dnp np : ℕ} (h : s.removeNode dnp np = .ok s') (i : ℕ) :
    (s'.store i).type = (s.store i).type ∧ (i ≠ dnp → (s'.store i).child = (s.store i).child) := by
  unfold removeNode at h
  split at h
  · cases h
  · split at h
    · cases h
      by_cases hi : i = dnp
      · subst hi
        simp
      · simp [hi]
    · split at h
      · cases h
      · cases h
        rw [type_store_set, child_store_set]
        constructor
        · split
          · rename_i hp
            rw [hp]
          · rfl
        · intro _
          split
          · rename_i hp
            rw [hp]
          · rfl

/-- **A rename across directories makes a regular file.**  Whatever the source was, the node
`ramfs_rename` creates under the new name is a `VREG` node with no children. -/
theorem ramfsRename_cross_type {dvp1 vp1 dvp2 : ℕ} {name2 : String} (hdir : dvp1 ≠ dvp2)
    (hd1 : dvp1 < s.nextId) (hd2 : dvp2 < s.nextId)
    (h : s.ramfsRename dvp1 vp1 dvp2 none name2 = .ok s') :
    (s'.store s.nextId).type = .VREG ∧ (s'.store s.nextId).child = none := by
  obtain ⟨hid, htype, hchild⟩ : (s.addNode dvp2 name2 .VREG).2 = s.nextId ∧
      ((s.addNode dvp2 name2 .VREG).1.store s.nextId).type = .VREG ∧
      ((s.addNode dvp2 name2 .VREG).1.store s.nextId).child = none :=
    addNode_new hd2
  have hne : s.nextId ≠ dvp1 := by omega
  simp only [ramfsRename, if_neg hdir, bind, Except.bind] at h
  -- the new node is the one `rn_buf` is copied to; only its data changes
  have hnew : ∀ t : RamfsState, t = (if ((s.addNode dvp2 name2 .VREG).1.store vp1).type = .VREG then
      ((s.addNode dvp2 name2 .VREG).1.set (s.addNode dvp2 name2 .VREG).2
        { (s.addNode dvp2 name2 .VREG).1.store (s.addNode dvp2 name2 .VREG).2 with
          buf := ((s.addNode dvp2 name2 .VREG).1.store vp1).buf,
          size := ((s.addNode dvp2 name2 .VREG).1.store vp1).size,
          bufsize := ((s.addNode dvp2 name2 .VREG).1.store vp1).bufsize }).set vp1
        { (s.addNode dvp2 name2 .VREG).1.store vp1 with buf := none }
      else (s.addNode dvp2 name2 .VREG).1) →
      (t.store s.nextId).type = .VREG ∧ (t.store s.nextId).child = none := by
    rintro t rfl
    split
    · simp only [type_store_set, child_store_set, hid]
      split
      · rename_i hv
        subst hv
        exact ⟨htype, hchild⟩
      · simp only [if_true]
        exact ⟨htype, hchild⟩
    · exact ⟨htype, hchild⟩
  -- removing the source touches the old directory's list only
  split at h
  · rename_i s'' hrem
    cases h
    obtain ⟨ht, hc⟩ := removeNode_store hrem s.nextId
    obtain ⟨ht', hc'⟩ := hnew _ rfl
    exact ⟨ht.trans ht', (hc hne).trans hc'⟩
  · cases h
    exact hnew _ rfl

end Rename

end RamfsState

/-! ## The counterexamples -/

/-- A file `f` created in the root, written with two bytes, truncated to one byte and grown
back to two. -/
def staleRun : List RamfsOp :=
  [.create 0 "f" S_IFREG, .lookup 0 "f", .write 1 0 [0x41, 0x42] 0 0, .truncate 1 1 0,
    .truncate 1 2 0]

/-- Directories `a` and `b` in the root, and `c` in `a`. -/
def dirsRun : List RamfsOp :=
  [.mkdir 0 "a" S_IFDIR, .mkdir 0 "b" S_IFDIR, .mkdir 1 "c" S_IFDIR]

theorem ramfs_stale_bytes_and_rename_type :
    (∃ s, runFrom RamfsState.step RamfsState.init staleRun = some s ∧
      s.ramfsRead 1 0 2 = .ok [0x41, 0x42] ∧
      specRead (specTruncate (specTruncate (specWrite [] 0 [0x41, 0x42]) 1) 2) 0 2 = [0x41, 0]) ∧
    ∃ s₀ s, runFrom RamfsState.step RamfsState.init dirsRun = some s₀ ∧
      (s₀.store 1).type = .VDIR ∧ (s₀.store 1).child = some 3 ∧
      s₀.step (.rename 0 1 2 none "a") = some s ∧
      (s.store 4).name = "a" ∧ (s.store 4).type = .VREG ∧ (s.store 4).child = none :=
  ⟨⟨_, rfl, by decide, by decide⟩, _, _, rfl, rfl, rfl, rfl, rfl, rfl, rfl⟩

end Osv.Fs
