import Osv.Lib.Queue
import Osv.Lib.Threaded

/-!
# The virtio ring

`drivers/virtio-vring.cc`: the driver's side of a virtqueue of `_num` descriptors.  The
descriptors hold both the free list and the chains handed to the host.  The free list starts
at `_avail_head` and has `_avail_count` descriptors, linked by `_next`; `add_buf` takes the
first `_sg_vec.size()` of them, marks all but the last `VRING_DESC_F_NEXT`, and publishes the
head in the available ring.  The host returns a chain by writing its head to the used ring;
`get_buf_elem`/`get_buf_finalize` read the used ring up to `_used_ring_host_head`, and
`get_buf_gc` puts each chain read back at the front of the free list, linking its last
descriptor to the old head.  All ring positions are free-running `u16` counters, reduced
modulo `_num` to address the rings.

The host is part of the system: it takes published heads from the available ring in order
(`Host.lastAvail`) and returns them in any order (`Op.complete`), and it writes `avail_event`
and the used ring's flags at any time.  Each call of the driver is one step: the driver's
calls hold the queue's lock, and the host reads what a call published only after the release
store of `_avail->_idx`.

`Vring.init` is the constructor.  The indirect branch of `add_buf` is kept, but `use_indirect`
begins with `false &&` (`useIndirect_eq_false`), so it is never taken; `get_buf_gc` frees the
indirect table of a head that has `VRING_DESC_F_INDIRECT`, which is never set either.
-/

namespace Osv.Drivers

open Threaded

/-- `vring_desc::VRING_DESC_F_NEXT` -/
def VRING_DESC_F_NEXT : UInt16 := 1
/-- `vring_desc::VRING_DESC_F_WRITE` -/
def VRING_DESC_F_WRITE : UInt16 := 2
/-- `vring_desc::VRING_DESC_F_INDIRECT` -/
def VRING_DESC_F_INDIRECT : UInt16 := 4
/-- `vring_used::VRING_USED_F_NO_NOTIFY` -/
def VRING_USED_F_NO_NOTIFY : UInt16 := 1

/-- A `vring_desc`: its flags and the index of the next descriptor.  `_paddr` and `_len` are
written for the host and never read back. -/
structure VringDesc where
  flags : UInt16
  next : UInt16
  deriving DecidableEq, Repr

/-- `flags & f`, the test the driver makes. -/
def VringDesc.has (d : VringDesc) (f : UInt16) : Bool := d.flags &&& f != 0

/-- A `vring_used_elem`: the head of a returned chain and the length the host wrote. -/
structure VringUsedElem where
  id : UInt32
  len : UInt32
  deriving DecidableEq, Repr

/-- A `vring::sg_node` of `_sg_vec`: the flags its descriptor gets; its `_paddr` and `_len`
are copied to the descriptor's. -/
structure SgNode where
  flags : UInt16
  deriving DecidableEq, Repr

/-- What the driver asks of the device: `get_event_idx_cap()` and `get_indirect_buf_cap()`. -/
structure Device where
  eventIdxCap : Bool
  indirectBufCap : Bool

/-- A `vring` with `_num = num`, with the parts of the shared rings it reads and writes:
`_avail->_idx`, `_avail->_ring`, `_used->_idx`, `_used->_used_elements`, `*_avail_event` and
`_used->_flags`.  A cookie is `none` for `nullptr`. -/
structure Vring (num : ℕ) where
  desc : ℕ → VringDesc
  cookie : ℕ → Option ℕ
  availHead : UInt16
  usedRingHostHead : UInt16
  usedRingGuestHead : UInt16
  availAddedSinceKick : UInt16
  availCount : UInt16
  availIdx : UInt16
  availRing : Fin num → UInt16
  usedIdx : UInt16
  usedElements : Fin num → VringUsedElem
  availEvent : UInt16
  usedFlags : UInt16

namespace Vring

variable {num : ℕ} [NeZero num]

/-- The constructor `vring(dev, num, q_index)`: the rings zeroed, each descriptor linked to the
next and the last to `0`, all of them free from `0`.  `_cookie` is a `new void*[num]` and is
not initialised: `cookie`. -/
def init (num : ℕ) [NeZero num] (cookie : ℕ → Option ℕ) : Vring num where
  desc i := ⟨0, if i = num - 1 then 0 else UInt16.ofNat (i + 1)⟩
  cookie := cookie
  availHead := 0
  usedRingHostHead := 0
  usedRingGuestHead := 0
  availAddedSinceKick := 0
  availCount := UInt16.ofNat num
  availIdx := 0
  availRing _ := 0
  usedIdx := 0
  usedElements _ := ⟨0, 0⟩
  availEvent := 0
  usedFlags := 0

/-- `_desc[i]._next`, as an index. -/
def nextOf (desc : ℕ → VringDesc) (i : ℕ) : ℕ := (desc i).next.toNat

/-- `_desc[i]._flags & VRING_DESC_F_NEXT`. -/
def moreOf (desc : ℕ → VringDesc) (i : ℕ) : Bool := (desc i).has VRING_DESC_F_NEXT

/-! ## `get_buf_gc` -/

/-- The inner loop of `get_buf_gc`: from `idx`, follow `_next` while `VRING_DESC_F_NEXT` is
set, counting the descriptors in `i`.  `fuel` bounds the links followed. -/
def chainEnd (desc : ℕ → VringDesc) : ℕ → ℕ → ℕ → ℕ × ℕ
  | 0, idx, i => (idx, i)
  | fuel + 1, idx, i =>
      if (desc idx).has VRING_DESC_F_NEXT then chainEnd desc fuel (desc idx).next.toNat (i + 1)
      else (idx, i)

/-- One turn of the loop of `get_buf_gc`: the chain the host returned at
`_used_ring_guest_head` goes to the front of the free list.  A head with
`VRING_DESC_F_INDIRECT` counts one descriptor (its table is freed). -/
def gcOne (r : Vring num) : Vring num :=
  let elem := r.usedElements (Ring.slot num r.usedRingGuestHead.toNat)
  let (idx, i) :=
    if (r.desc elem.id.toNat).has VRING_DESC_F_INDIRECT then (elem.id.toNat, 1)
    else chainEnd r.desc num elem.id.toNat 1
  { r with
    usedRingGuestHead := r.usedRingGuestHead + 1
    availCount := r.availCount + UInt16.ofNat i
    desc := Function.update r.desc idx { r.desc idx with next := r.availHead }
    availHead := elem.id.toUInt16 }

/-- The loop of `get_buf_gc`, with `n` turns left. -/
def gcLoop : ℕ → Vring num → Vring num
  | 0, r => r
  | n + 1, r => if r.usedRingGuestHead ≠ r.usedRingHostHead then gcLoop n (gcOne r) else r

/-- `get_buf_gc()`.  Each turn steps `_used_ring_guest_head` by one until it meets
`_used_ring_host_head`: `_used_ring_host_head - _used_ring_guest_head` turns. -/
def getBufGc (r : Vring num) : Vring num :=
  gcLoop (r.usedRingHostHead - r.usedRingGuestHead).toNat r

/-! ## `add_buf` and `kick` -/

/-- `use_indirect(desc_needed)` -/
def useIndirect (dev : Device) (r : Vring num) (descNeeded : ℕ) : Bool :=
  false && dev.indirectBufCap && decide (1 < descNeeded) && decide (num * 2 / 3 < r.availCount.toNat)

/-- `kick()`: whether the host was notified.  With `VIRTIO_RING_F_EVENT_IDX` the test is
`vring_need_event` on `u16`s. -/
def kick (dev : Device) (r : Vring num) : Bool × Vring num :=
  if dev.eventIdxCap then
    if r.availIdx - r.availEvent - 1 < r.availAddedSinceKick then
      (true, { r with availAddedSinceKick := 0 })
    else (false, r)
  else if r.usedFlags &&& VRING_USED_F_NO_NOTIFY != 0 then (false, r)
  else (true, { r with availAddedSinceKick := 0 })

/-- The loop of `add_buf` over `_sg_vec`: the descriptors from `idx` on, along `_next`, get
`VRING_DESC_F_NEXT` and their buffer's flags (the write keeps `_next`).  Returns the
descriptors, `prev_idx` (`none` for `-1`) and `idx`. -/
def fillLoop : (ℕ → VringDesc) → List SgNode → Option ℕ → ℕ → (ℕ → VringDesc) × Option ℕ × ℕ
  | desc, [], prev, idx => (desc, prev, idx)
  | desc, sg :: sgs, _, idx =>
      fillLoop (Function.update desc idx { desc idx with flags := VRING_DESC_F_NEXT ||| sg.flags })
        sgs (some idx) (desc idx).next.toNat

/-- The descriptors of a published chain after the loop, with `VRING_DESC_F_NEXT` cleared on the
last one, and the new `_avail_head`.  The indirect branch writes its buffers to a table of its
own whose last entry links to `_desc[idx]._next`, and marks the head
`VRING_DESC_F_INDIRECT`. -/
def fillChain (r : Vring num) (sgVec : List SgNode) (indirect : Bool) : (ℕ → VringDesc) × ℕ :=
  let head := r.availHead.toNat
  if indirect then
    (Function.update r.desc head { r.desc head with flags := VRING_DESC_F_INDIRECT },
      (r.desc head).next.toNat)
  else
    match fillLoop r.desc sgVec none head with
    | (desc, some prev, idx) =>
        (Function.update desc prev { desc prev with flags := (desc prev).flags &&& ~~~VRING_DESC_F_NEXT },
          idx)
    | (desc, none, idx) => (desc, idx)

/-- The second half of `add_buf`, once the descriptors suffice: build the chain from
`_avail_head`, store the cookie, publish the head in the available ring. -/
def publish (r : Vring num) (sgVec : List SgNode) (cookie : Option ℕ) (indirect : Bool) : Vring num :=
  let descNeeded := if indirect then 1 else sgVec.length
  let (desc, idx) := fillChain r sgVec indirect
  { r with
    desc := desc
    cookie := Function.update r.cookie r.availHead.toNat cookie
    availAddedSinceKick := r.availAddedSinceKick + 1
    availCount := r.availCount - UInt16.ofNat descNeeded
    availRing := Function.update r.availRing (Ring.slot num r.availIdx.toNat) r.availHead
    availIdx := r.availIdx + 1
    availHead := UInt16.ofNat idx }

/-- `add_buf(cookie)` with `_sg_vec = sgVec`: whether the buffer was published.  The `malloc` of
the indirect branch is taken to succeed. -/
def addBuf (dev : Device) (r : Vring num) (sgVec : List SgNode) (cookie : Option ℕ) :
    Bool × Vring num :=
  let r := getBufGc r
  let indirect := useIndirect dev r (sgVec.length * num / 2)
  let descNeeded := if indirect then 1 else sgVec.length
  if r.availCount.toNat < descNeeded then
    -- make sure the interrupts get there
    (false, (kick dev r).2)
  else (true, publish r sgVec cookie indirect)

/-! ## Reading the used ring -/

/-- `get_buf_elem(&len)`: the cookie of the next chain the host returned and its length, which
clears the cookie; `(none, none)` for `nullptr` when the host returned nothing new. -/
def getBufElem (r : Vring num) : Option ℕ × Option UInt32 × Vring num :=
  if r.usedRingHostHead = r.usedIdx then (none, none, r)
  else
    let elem := r.usedElements (Ring.slot num r.usedRingHostHead.toNat)
    (r.cookie elem.id.toNat, some elem.len,
      { r with cookie := Function.update r.cookie elem.id.toNat none })

/-- `get_buf_finalize()`; the `set_used_event` it makes for the host is left out. -/
def getBufFinalize (r : Vring num) : Vring num :=
  { r with usedRingHostHead := r.usedRingHostHead + 1 }

/-- `avail_ring_has_room(descriptors)` -/
def availRingHasRoom (dev : Device) (r : Vring num) (descriptors : ℕ) : Bool :=
  let effectiveAvailCount := r.availCount + (r.usedRingHostHead - r.usedRingGuestHead)
  let descriptors := if useIndirect dev r descriptors then 1 else descriptors
  decide (descriptors ≤ effectiveAvailCount.toNat)

/-! ## The spec of each call -/

omit [NeZero num] in
@[simp] theorem useIndirect_eq_false (dev : Device) (r : Vring num) (n : ℕ) :
    useIndirect dev r n = false := by
  simp only [useIndirect, Bool.false_and]

theorem addBuf_of_lt {dev : Device} {r : Vring num} {sgVec : List SgNode} {cookie : Option ℕ}
    (h : (getBufGc r).availCount.toNat < sgVec.length) :
    addBuf dev r sgVec cookie = (false, (kick dev (getBufGc r)).2) := by
  simp only [addBuf, useIndirect_eq_false, Bool.false_eq_true, if_false, if_pos h]

theorem addBuf_of_le {dev : Device} {r : Vring num} {sgVec : List SgNode} {cookie : Option ℕ}
    (h : sgVec.length ≤ (getBufGc r).availCount.toNat) :
    addBuf dev r sgVec cookie = (true, publish (getBufGc r) sgVec cookie false) := by
  simp only [addBuf, useIndirect_eq_false, Bool.false_eq_true, if_false, if_neg (Nat.not_lt.mpr h)]

/-- `add_buf` publishes exactly when, after its `get_buf_gc`, `_avail_count` covers the
buffers. -/
theorem addBuf_fst (dev : Device) (r : Vring num) (sgVec : List SgNode) (cookie : Option ℕ) :
    (addBuf dev r sgVec cookie).1 = decide (sgVec.length ≤ (getBufGc r).availCount.toNat) := by
  by_cases h : sgVec.length ≤ (getBufGc r).availCount.toNat
  · rw [addBuf_of_le h, decide_eq_true h]
  · rw [addBuf_of_lt (Nat.lt_of_not_le h), decide_eq_false h]

omit [NeZero num] in
theorem kick_of_event {dev : Device} {r : Vring num} (hcap : dev.eventIdxCap = true) :
    kick dev r = if r.availIdx - r.availEvent - 1 < r.availAddedSinceKick then
      (true, { r with availAddedSinceKick := 0 }) else (false, r) := by
  simp only [kick, hcap, if_true]

omit [NeZero num] in
/-- `kick` writes no field but `_avail_added_since_kick`, which it clears when it notifies. -/
theorem kick_snd (dev : Device) (r : Vring num) :
    (kick dev r).2 = if (kick dev r).1 then { r with availAddedSinceKick := 0 } else r := by
  unfold kick
  split_ifs <;> simp_all

theorem gcLoop_succ_of_ne {n : ℕ} {r : Vring num} (h : r.usedRingGuestHead ≠ r.usedRingHostHead) :
    gcLoop (n + 1) r = gcLoop n (gcOne r) := by
  rw [gcLoop, if_pos h]

/-- The descriptors of the free list, the `n` from `_avail_head` along `_next`. -/
def freeList (r : Vring num) : List ℕ := walk (nextOf r.desc) r.availHead.toNat r.availCount.toNat

/-- The chain of descriptors from the head `h`, as the host follows it. -/
def chainOf (r : Vring num) (h : ℕ) : List ℕ := follow (moreOf r.desc) (nextOf r.desc) num h

end Vring

/-! ## The host and the system -/

/-- The host's side of the rings: its `last_avail_idx` in the available ring, and the heads
of the chains it took and has not returned, in the order it took them. -/
structure Host where
  lastAvail : UInt16
  taken : List ℕ

/-- The driver's ring and the host, with the number of buffers published since the host was
last notified (a ghost, for what `kick` is meant to do). -/
structure Sys (num : ℕ) where
  ring : Vring num
  host : Host
  sinceKick : ℕ

/-- The calls of the driver and the moves of the host. -/
inductive Op where
  | addBuf (sgVec : List SgNode) (cookie : Option ℕ)
  | getBufGc
  | getBufElem
  | getBufFinalize
  | kick
  /-- The host takes the next published head. -/
  | take
  /-- The host returns the `j`-th chain it holds, having written `len` bytes. -/
  | complete (j : ℕ) (len : UInt32)
  | setAvailEvent (v : UInt16)
  | setUsedFlags (v : UInt16)

namespace Sys

variable {num : ℕ} [NeZero num]

/-- The buffers of the drivers: at least one, each with the flags `VRING_DESC_F_READ` (`0`)
or `VRING_DESC_F_WRITE`, so never `VRING_DESC_F_INDIRECT`. -/
def Direct (sgVec : List SgNode) : Prop :=
  sgVec ≠ [] ∧ ∀ sg ∈ sgVec, sg.flags &&& VRING_DESC_F_INDIRECT = 0

instance (sgVec : List SgNode) : Decidable (Direct sgVec) := inferInstanceAs (Decidable (_ ∧ _))

/-- One step; `none` where the call or the move is not enabled.  `get_buf_finalize` follows a
`get_buf_elem` that returned an entry. -/
def step (dev : Device) (s : Sys num) : Op → Option (Sys num)
  | .addBuf sgVec cookie =>
      if Direct sgVec then
        some { s with
          ring := (Vring.addBuf dev s.ring sgVec cookie).2
          sinceKick :=
            if (Vring.addBuf dev s.ring sgVec cookie).1 then s.sinceKick + 1
            else if (Vring.kick dev (Vring.getBufGc s.ring)).1 then 0 else s.sinceKick }
      else none
  | .getBufGc => some { s with ring := Vring.getBufGc s.ring }
  | .getBufElem => some { s with ring := (Vring.getBufElem s.ring).2.2 }
  | .getBufFinalize =>
      if s.ring.usedRingHostHead ≠ s.ring.usedIdx then
        some { s with ring := Vring.getBufFinalize s.ring }
      else none
  | .kick =>
      some { s with
        ring := (Vring.kick dev s.ring).2
        sinceKick := if (Vring.kick dev s.ring).1 then 0 else s.sinceKick }
  | .take =>
      if s.host.lastAvail ≠ s.ring.availIdx then
        some { s with host :=
          ⟨s.host.lastAvail + 1,
            s.host.taken ++ [(s.ring.availRing (Ring.slot num s.host.lastAvail.toNat)).toNat]⟩ }
      else none
  | .complete j len =>
      if h : j < s.host.taken.length then
        some { s with
          ring := { s.ring with
            usedElements := Function.update s.ring.usedElements (Ring.slot num s.ring.usedIdx.toNat)
              ⟨UInt32.ofNat s.host.taken[j], len⟩
            usedIdx := s.ring.usedIdx + 1 }
          host := { s.host with taken := s.host.taken.eraseIdx j } }
      else none
  | .setAvailEvent v => some { s with ring := { s.ring with availEvent := v } }
  | .setUsedFlags v => some { s with ring := { s.ring with usedFlags := v } }

section StepEq

variable {dev : Device} {s : Sys num}

/-! The equation of each guarded step where its guard holds. -/

theorem step_addBuf {sgVec : List SgNode} (h : Direct sgVec) (cookie : Option ℕ) :
    step dev s (.addBuf sgVec cookie) = some { s with
      ring := (Vring.addBuf dev s.ring sgVec cookie).2
      sinceKick :=
        if (Vring.addBuf dev s.ring sgVec cookie).1 then s.sinceKick + 1
        else if (Vring.kick dev (Vring.getBufGc s.ring)).1 then 0 else s.sinceKick } :=
  if_pos h

theorem step_getBufFinalize (h : s.ring.usedRingHostHead ≠ s.ring.usedIdx) :
    step dev s .getBufFinalize = some { s with ring := Vring.getBufFinalize s.ring } :=
  if_pos h

theorem step_take (h : s.host.lastAvail ≠ s.ring.availIdx) :
    step dev s .take = some { s with host :=
      ⟨s.host.lastAvail + 1, s.host.taken ++ [(s.ring.availRing (Ring.slot num s.host.lastAvail.toNat)).toNat]⟩ } :=
  if_pos h

theorem step_complete {j : ℕ} (hj : j < s.host.taken.length) (len : UInt32) :
    step dev s (.complete j len) = some { s with
      ring := { s.ring with
        usedElements := Function.update s.ring.usedElements (Ring.slot num s.ring.usedIdx.toNat)
          ⟨UInt32.ofNat s.host.taken[j], len⟩
        usedIdx := s.ring.usedIdx + 1 }
      host := { s.host with taken := s.host.taken.eraseIdx j } } :=
  dif_pos hj

end StepEq

/-- The initial states: a ring just constructed, a host that has taken nothing. -/
def Init (s : Sys num) : Prop := ∃ cookie, s = ⟨Vring.init num cookie, ⟨0, []⟩, 0⟩

end Sys

/-- The driver and the host, as a transition system. -/
def vringSystem (dev : Device) (num : ℕ) [NeZero num] : Transition.System (Sys num) Op :=
  Transition.System.ofFun Sys.Init (Sys.step dev)

end Osv.Drivers
