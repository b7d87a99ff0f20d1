import Osv.Drivers.Vring
import Osv.Vfs.Physio

/-!
# The virtio-blk request path

`virtio_blk_strategy(bio)` (`drivers/virtio-blk.cc`) adds the device's offset to `bio_offset`
and calls `make_virtio_request(bio)`, whose return value it drops.  `make_virtio_request`
checks the bio's size against `_config.seg_max`, maps `bio_cmd` to a request type, and posts a
chain of descriptors to queue 0: the header, the data buffer cut at page boundaries, and the
status byte.  `response_worker` takes each used request back and calls
`biodone(bio, status == VIRTIO_BLK_S_OK)`.

**The model.**  `makeVirtioRequest` is one call with the driver's `seg_max` and read-only
flag, and the address the request was allocated at: it returns what became of the bio
(`BlkOutcome`), with the chain it posts.  `add_buf` and its wait for room are the ring's
(`Osv.Drivers.Vring`); here a posted request is one the device will give back, with some
status byte.  `biodoneCalls` lists the calls to `biodone` the bio gets over its whole life.

**What holds.**  The data descriptors tile the buffer in order, each inside one page
(`dataLoop_tiles`), and there are as many as pages the buffer meets (`length_dataLoop`).  The
header names the sector `(bio_offset + offset) / 512` (`virtioBlkStrategy_posted`).  A posted
bio, and a write to a read-only device, gets exactly one `biodone`, true exactly when the device
said `VIRTIO_BLK_S_OK` and the request was posted (`virtioBlkStrategy_done_once`).

**What does not** (`virtio_blk_bio_lost_and_overlong`).  The size check and an unknown command
return without `biodone`, and nobody else holds the bio, so it is never completed
(`virtioBlkStrategy_never_done`).  The size check counts `bio_bcount / page_size + 1` segments, but a
buffer that starts late in a page meets one page more: a request can pass the check with
`seg_max + 1` data descriptors (`dataSegments_le`).
-/

namespace Osv.Drivers

open Osv.Vfs

/-! ## Constants -/

/-- `mmu::page_size`. -/
def pageSize : ℕ := 4096

/-- `sector_size`, the unit of `virtio_blk_outhdr::sector`. -/
def sectorSize : ℕ := 512

/-- `BIO_READ`, `BIO_WRITE` and `BIO_FLUSH` of `bio_cmd` (`osv/bio.h`). -/
def BIO_READ : ℕ := 0x01
def BIO_WRITE : ℕ := 0x02
def BIO_FLUSH : ℕ := 0x10

/-- The request types `make_virtio_request` writes into the header. -/
def VIRTIO_BLK_T_IN : ℕ := 0
def VIRTIO_BLK_T_OUT : ℕ := 1
def VIRTIO_BLK_T_FLUSH : ℕ := 4

/-- The status byte the device writes; `VIRTIO_BLK_S_UNSUPP` and any other value than
`VIRTIO_BLK_S_OK` are both failures. -/
def VIRTIO_BLK_S_OK : ℕ := 0
def VIRTIO_BLK_S_UNSUPP : ℕ := 2

/-- `VRING_DESC_F_READ`: a descriptor the device only reads. -/
def VRING_DESC_F_READ : UInt16 := 0

/-- `ENOTBLK` and `EROFS`. -/
def ENOTBLK : ℕ := 15
def EROFS : ℕ := 30

/-- `sizeof(struct virtio_blk_outhdr)`: `type`, `ioprio` and `sector`.  The status byte
`res` follows it in `virtio_blk_req`. -/
def outhdrSize : ℕ := 16

/-! ## The request -/

/-- A `vring::sg_node`: an address, a length and the flags.  The address is the buffer's
virtual one; `virt_to_phys` maps a page at a time, and no node here crosses a page. -/
structure SgEntry where
  addr : ℕ
  len : ℕ
  flags : UInt16
  deriving DecidableEq, Repr

/-- The bytes a descriptor covers. -/
def SgEntry.bytes (e : SgEntry) : List ℕ := List.range' e.addr e.len

/-- The fields of `virtio_blk_config` and of the driver that `make_virtio_request` reads. -/
structure VirtioBlk where
  segMax : ℕ
  ro : Bool
  deriving DecidableEq, Repr

/-- A `virtio_blk_req` as `make_virtio_request` fills it: the header's type and sector, and
the bio it completes. -/
structure BlkReq where
  type : ℕ
  sector : ℕ
  bio : Option Bio
  deriving DecidableEq, Repr

/-- What `make_virtio_request` does with a bio: return `err` without `biodone`, call
`biodone(bio, ok)` and return `err`, or post `req` with the chain `sg`. -/
inductive BlkOutcome
  | rejected (err : ℕ)
  | finished (ok : Bool) (err : ℕ)
  | posted (req : BlkReq) (sg : List SgEntry)
  deriving DecidableEq, Repr

/-- The length of the next data descriptor: what is left, at most a page, and cut at the end
of the page it starts in. -/
def segmentSize (bcount len offset : ℕ) : ℕ :=
  if offset + min (bcount - len) pageSize > pageSize then pageSize - offset
  else min (bcount - len) pageSize

/-- The loop `while (len != bio->bio_bcount)` of `make_virtio_request`, with fuel: the data
descriptors, from `base` with `len` bytes done and `offset` the position in the first page. -/
def dataLoop (bcount : ℕ) (flag : UInt16) : ℕ → ℕ → ℕ → ℕ → List SgEntry
  | 0, _, _, _ => []
  | fuel + 1, len, base, offset =>
      if len ≠ bcount then
        ⟨base, segmentSize bcount len offset, flag⟩ ::
          dataLoop bcount flag fuel (len + segmentSize bcount len offset)
            (base + segmentSize bcount len offset) 0
      else []

/-- The chain of a request of type `type` allocated at `req`: the header, the data and the
status byte.  The data descriptors are read by the device on a write and written otherwise. -/
def requestChain (req type : ℕ) (bio : Bio) : List SgEntry :=
  ⟨req, outhdrSize, VRING_DESC_F_READ⟩ ::
    dataLoop bio.bcount (if type = VIRTIO_BLK_T_OUT then VRING_DESC_F_READ else VRING_DESC_F_WRITE)
      bio.bcount 0 bio.data (bio.data % pageSize) ++
    [⟨req + outhdrSize, 1, VRING_DESC_F_WRITE⟩]

/-- Posting a request of type `type`. -/
def postRequest (req type : ℕ) (bio : Bio) : BlkOutcome :=
  .posted ⟨type, bio.offset / sectorSize, some bio⟩ (requestChain req type bio)

/-- `make_virtio_request(bio)` for a request that `new` places at `req`. -/
def makeVirtioRequest (drv : VirtioBlk) (req : ℕ) : Option Bio → BlkOutcome
  | none => .rejected EIO
  | some bio =>
      if bio.bcount / pageSize + 1 > drv.segMax then .rejected EIO
      else if bio.cmd = BIO_READ then postRequest req VIRTIO_BLK_T_IN bio
      else if bio.cmd = BIO_WRITE then
        if drv.ro then .finished false EROFS else postRequest req VIRTIO_BLK_T_OUT bio
      else if bio.cmd = BIO_FLUSH then postRequest req VIRTIO_BLK_T_FLUSH bio
      else .rejected ENOTBLK

/-- `virtio_blk_strategy(bio)` on a device at offset `devOffset`. -/
def virtioBlkStrategy (drv : VirtioBlk) (devOffset req : ℕ) (bio : Bio) : BlkOutcome :=
  makeVirtioRequest drv req (some { bio with offset := bio.offset + devOffset })

/-- The calls `~virtio_blk_req` makes: `biodone(bio, false)` if the request still has its bio. -/
def reqDestructor (r : BlkReq) : List Bool :=
  if r.bio.isSome then [false] else []

/-- What `response_worker` does with one used request whose status byte is `status`: the
calls to `biodone`, its own and then those of the destructor once it has cleared `req->bio`.
`VIRTIO_BLK_S_UNSUPP` and the other failures differ only in what they print. -/
def responseWorker (r : BlkReq) (status : ℕ) : List Bool :=
  (match r.bio with
    | some _ => [if status = VIRTIO_BLK_S_OK then true
        else if status = VIRTIO_BLK_S_UNSUPP then false else false]
    | none => []) ++
  reqDestructor { r with bio := none }

/-- The calls to `biodone` a bio gets over its life, when a posted request comes back with
`status`. -/
def biodoneCalls : BlkOutcome → ℕ → List Bool
  | .rejected _, _ => []
  | .finished ok _, _ => [ok]
  | .posted r _, status => responseWorker r status

/-! ## The data descriptors -/

section Segments

variable {bcount len offset base : ℕ}

theorem segmentSize_pos (hlen : len < bcount) (hoff : offset < pageSize) :
    0 < segmentSize bcount len offset := by
  unfold segmentSize pageSize at *
  split <;> omega

theorem segmentSize_le : segmentSize bcount len offset ≤ bcount - len := by
  unfold segmentSize
  split <;> omega

theorem segmentSize_fits (hoff : offset < pageSize) :
    offset + segmentSize bcount len offset ≤ pageSize := by
  unfold segmentSize at *
  split <;> omega

/-- A descriptor that does not end the buffer ends its page. -/
theorem segmentSize_aligned (hbase : offset = base % pageSize)
    (hlt : segmentSize bcount len offset < bcount - len) :
    (base + segmentSize bcount len offset) % pageSize = 0 := by
  unfold segmentSize at *
  by_cases hcut : offset + min (bcount - len) pageSize > pageSize
  · rw [if_pos hcut]
    unfold pageSize at *
    omega
  · -- a whole page that is not the last one: it starts a page, so it ends one
    rw [if_neg hcut] at *
    unfold pageSize at *
    omega

variable {flag : UInt16}

theorem dataLoop_zero : dataLoop bcount flag 0 len base offset = [] := rfl

theorem dataLoop_succ_self (fuel : ℕ) :
    dataLoop bcount flag (fuel + 1) bcount base offset = [] := if_neg (not_not.2 rfl)

theorem dataLoop_succ_of_ne {fuel : ℕ} (h : len ≠ bcount) :
    dataLoop bcount flag (fuel + 1) len base offset =
      ⟨base, segmentSize bcount len offset, flag⟩ :: dataLoop bcount flag fuel
        (len + segmentSize bcount len offset) (base + segmentSize bcount len offset) 0 := if_pos h

/-- **The data descriptors tile the buffer.**  With the fuel the loop needs, and `offset` the
position of `base` in its page while bytes are left, every descriptor carries `flag`, has
between one byte and the rest of its page, and the descriptors cover, in order, the bytes
`[base, base + bcount - len)`. -/
theorem dataLoop_tiles :
    ∀ fuel len base offset, bcount - len ≤ fuel → len ≤ bcount → offset < pageSize →
      (len ≠ bcount → offset = base % pageSize) →
      (∀ e ∈ dataLoop bcount flag fuel len base offset,
        e.flags = flag ∧ 0 < e.len ∧ e.addr % pageSize + e.len ≤ pageSize) ∧
      (dataLoop bcount flag fuel len base offset).flatMap SgEntry.bytes =
        List.range' base (bcount - len) := by
  intro fuel
  induction fuel with
  | zero =>
      intro len base offset hfuel hlen _ _
      simp [dataLoop_zero, show bcount - len = 0 by omega]
  | succ fuel ih =>
      intro len base offset hfuel hlen hoff hbase
      by_cases hdone : len = bcount
      · subst hdone
        simp [dataLoop_succ_self]
      · -- one descriptor of `segmentSize` bytes, then the rest of the buffer from a page start
        have hpos : 0 < segmentSize bcount len offset := segmentSize_pos (by omega) hoff
        have hle : segmentSize bcount len offset ≤ bcount - len := segmentSize_le
        have hfit : offset + segmentSize bcount len offset ≤ pageSize := segmentSize_fits hoff
        have hnext : len + segmentSize bcount len offset ≠ bcount →
            0 = (base + segmentSize bcount len offset) % pageSize := fun h =>
          (segmentSize_aligned (hbase hdone) (by omega)).symm
        obtain ⟨hall, hbytes⟩ := ih (len + segmentSize bcount len offset)
          (base + segmentSize bcount len offset) 0 (by omega) (by omega) (by decide) hnext
        simp only [dataLoop_succ_of_ne hdone, List.mem_cons, List.flatMap_cons, hbytes]
        refine ⟨?_, ?_⟩
        · rintro e (rfl | he)
          · exact ⟨rfl, hpos, hbase hdone ▸ hfit⟩
          · exact hall e he
        · show List.range' base (segmentSize bcount len offset) ++
            List.range' (base + segmentSize bcount len offset)
              (bcount - (len + segmentSize bcount len offset)) = _
          rw [List.range'_append_1]
          congr 1
          omega

/-- **There is one data descriptor for each page the buffer meets.** -/
theorem length_dataLoop :
    ∀ fuel len base offset, bcount - len ≤ fuel → len ≤ bcount → offset < pageSize →
      (len ≠ bcount → offset = base % pageSize) →
      (dataLoop bcount flag fuel len base offset).length =
        if len = bcount then 0 else (base % pageSize + (bcount - len) - 1) / pageSize + 1 := by
  intro fuel
  induction fuel with
  | zero =>
      intro len base offset hfuel hlen _ _
      simp [dataLoop_zero, show len = bcount by omega]
  | succ fuel ih =>
      intro len base offset hfuel hlen hoff hbase
      by_cases hdone : len = bcount
      · simp [hdone, dataLoop_succ_self]
      · have hpos : 0 < segmentSize bcount len offset := segmentSize_pos (by omega) hoff
        have hle : segmentSize bcount len offset ≤ bcount - len := segmentSize_le
        have hfit : offset + segmentSize bcount len offset ≤ pageSize := segmentSize_fits hoff
        have hnext : len + segmentSize bcount len offset ≠ bcount →
            0 = (base + segmentSize bcount len offset) % pageSize := fun h =>
          (segmentSize_aligned (hbase hdone) (by omega)).symm
        simp only [dataLoop_succ_of_ne hdone, List.length_cons, if_neg hdone]
        rw [ih _ _ _ (by omega) (by omega) (by decide) hnext]
        have hb := hbase hdone
        -- the descriptor ends the buffer, or it ends its page and the rest starts a new one
        by_cases hend : len + segmentSize bcount len offset = bcount
        · rw [if_pos hend]
          unfold pageSize at *
          omega
        · rw [if_neg hend, ← hnext hend]
          unfold segmentSize at *
          by_cases hcut : offset + min (bcount - len) pageSize > pageSize
          · rw [if_pos hcut] at *
            unfold pageSize at *
            omega
          · rw [if_neg hcut] at *
            unfold pageSize at *
            omega

end Segments

/-! ## Completion -/

/-- The shape of one call: what `make_virtio_request` does with a bio it is given. -/
theorem makeVirtioRequest_spec (drv : VirtioBlk) (req : ℕ) (bio : Bio) :
    (drv.segMax < bio.bcount / pageSize + 1 ∧
        makeVirtioRequest drv req (some bio) = .rejected EIO) ∨
      (bio.bcount / pageSize + 1 ≤ drv.segMax ∧ bio.cmd = BIO_WRITE ∧ drv.ro = true ∧
        makeVirtioRequest drv req (some bio) = .finished false EROFS) ∨
      (bio.bcount / pageSize + 1 ≤ drv.segMax ∧
        bio.cmd ≠ BIO_READ ∧ bio.cmd ≠ BIO_WRITE ∧ bio.cmd ≠ BIO_FLUSH ∧
        makeVirtioRequest drv req (some bio) = .rejected ENOTBLK) ∨
      (bio.bcount / pageSize + 1 ≤ drv.segMax ∧ ∃ type,
        (bio.cmd = BIO_READ ∧ type = VIRTIO_BLK_T_IN ∨
          bio.cmd = BIO_WRITE ∧ drv.ro = false ∧ type = VIRTIO_BLK_T_OUT ∨
          bio.cmd = BIO_FLUSH ∧ type = VIRTIO_BLK_T_FLUSH) ∧
        makeVirtioRequest drv req (some bio) = postRequest req type bio) := by
  simp only [makeVirtioRequest]
  by_cases hseg : bio.bcount / pageSize + 1 > drv.segMax
  · exact .inl ⟨hseg, if_pos hseg⟩
  rw [if_neg hseg]
  have hseg' : bio.bcount / pageSize + 1 ≤ drv.segMax := by omega
  by_cases hread : bio.cmd = BIO_READ
  · exact .inr (.inr (.inr ⟨hseg', _, .inl ⟨hread, rfl⟩, if_pos hread⟩))
  rw [if_neg hread]
  by_cases hwrite : bio.cmd = BIO_WRITE
  · rw [if_pos hwrite]
    cases hro : drv.ro
    · exact .inr (.inr (.inr ⟨hseg', _, .inr (.inl ⟨hwrite, rfl, rfl⟩), rfl⟩))
    · exact .inr (.inl ⟨hseg', hwrite, rfl, rfl⟩)
  rw [if_neg hwrite]
  by_cases hflush : bio.cmd = BIO_FLUSH
  · exact .inr (.inr (.inr ⟨hseg', _, .inr (.inr ⟨hflush, rfl⟩), if_pos hflush⟩))
  rw [if_neg hflush]
  exact .inr (.inr (.inl ⟨hseg', hread, hwrite, hflush, rfl⟩))

/-- **A posted bio is completed exactly once**, successfully exactly when the device wrote
`VIRTIO_BLK_S_OK`: the destructor runs after `req->bio` is cleared. -/
theorem biodoneCalls_posted (req type : ℕ) (bio : Bio) (status : ℕ) :
    biodoneCalls (postRequest req type bio) status = [decide (status = VIRTIO_BLK_S_OK)] := by
  by_cases hok : status = VIRTIO_BLK_S_OK
  · simp [postRequest, biodoneCalls, responseWorker, reqDestructor, hok]
  · simp [postRequest, biodoneCalls, responseWorker, reqDestructor, hok]

section Strategy

variable {drv : VirtioBlk} {devOffset req : ℕ} {bio : Bio}

/-- **A bio the size check or the command switch turns away is never completed**, whatever
the device does: `make_virtio_request` returns before `biodone` and before it posts anything,
and `virtio_blk_strategy` drops the error. -/
theorem virtioBlkStrategy_never_done
    (hrej : drv.segMax < bio.bcount / pageSize + 1 ∨
      bio.cmd ≠ BIO_READ ∧ bio.cmd ≠ BIO_WRITE ∧ bio.cmd ≠ BIO_FLUSH) (status : ℕ) :
    biodoneCalls (virtioBlkStrategy drv devOffset req bio) status = [] := by
  unfold virtioBlkStrategy
  obtain ⟨-, h⟩ | ⟨hseg, hw, -, -⟩ | ⟨-, -, -, -, h⟩ | ⟨hseg, type, hcmd, -⟩ :=
    makeVirtioRequest_spec drv req { bio with offset := bio.offset + devOffset }
  · rw [h]; rfl
  · -- a write passes the command switch, so only the size check can have turned it away
    have hcmd : bio.cmd = BIO_WRITE := hw
    rcases hrej with hrej | ⟨-, hnw, -⟩
    · exact absurd hseg (by simpa using hrej)
    · exact absurd hcmd hnw
  · rw [h]; rfl
  · have hcmd' : bio.cmd = BIO_READ ∨ bio.cmd = BIO_WRITE ∨ bio.cmd = BIO_FLUSH := by
      rcases hcmd with ⟨h, -⟩ | ⟨h, -, -⟩ | ⟨h, -⟩
      · exact .inl h
      · exact .inr (.inl h)
      · exact .inr (.inr h)
    rcases hrej with hrej | ⟨hr, hw, hf⟩
    · exact absurd hseg (by simpa using hrej)
    · rcases hcmd' with h | h | h <;> contradiction

/-- **A bio that passes the size check with a known command is completed exactly once**:
successfully exactly when the device wrote `VIRTIO_BLK_S_OK`, and as a failure at once if it
is a write to a read-only device. -/
theorem virtioBlkStrategy_done_once (hseg : bio.bcount / pageSize + 1 ≤ drv.segMax)
    (hcmd : bio.cmd = BIO_READ ∨ bio.cmd = BIO_WRITE ∨ bio.cmd = BIO_FLUSH) (status : ℕ) :
    biodoneCalls (virtioBlkStrategy drv devOffset req bio) status =
      [decide (status = VIRTIO_BLK_S_OK ∧ ¬(bio.cmd = BIO_WRITE ∧ drv.ro = true))] := by
  unfold virtioBlkStrategy
  obtain ⟨hrej, -⟩ | ⟨-, hw, hro, h⟩ | ⟨-, hr, hw, hf, -⟩ | ⟨-, type, htype, h⟩ :=
    makeVirtioRequest_spec drv req { bio with offset := bio.offset + devOffset }
  · exact absurd hseg (by simpa using hrej)
  · rw [h]
    simp [biodoneCalls, show bio.cmd = BIO_WRITE from hw, hro]
  · rcases hcmd with h | h | h
    · exact absurd h hr
    · exact absurd h hw
    · exact absurd h hf
  · rw [h, biodoneCalls_posted]
    -- on the posted path the command is not a write to a read-only device
    have hnot : ¬(bio.cmd = BIO_WRITE ∧ drv.ro = true) := by
      rintro ⟨hw, hro⟩
      rcases htype with ⟨hr, -⟩ | ⟨-, hro', -⟩ | ⟨hf, -⟩
      · exact absurd (hr.symm.trans hw) (by decide)
      · exact absurd (hro.symm.trans hro') (by decide)
      · exact absurd (hf.symm.trans hw) (by decide)
    simp [hnot]

/-- The shape of a posted request: it passed the size check, and its header and chain are
those of its type. -/
theorem virtioBlkStrategy_eq_posted {r : BlkReq} {sg : List SgEntry}
    (h : virtioBlkStrategy drv devOffset req bio = .posted r sg) :
    bio.bcount / pageSize + 1 ≤ drv.segMax ∧ ∃ type,
      r = ⟨type, (bio.offset + devOffset) / sectorSize,
        some { bio with offset := bio.offset + devOffset }⟩ ∧
      sg = requestChain req type bio := by
  unfold virtioBlkStrategy at h
  obtain ⟨-, h'⟩ | ⟨-, -, -, h'⟩ | ⟨-, -, -, -, h'⟩ | ⟨hseg, type, -, h'⟩ :=
    makeVirtioRequest_spec drv req { bio with offset := bio.offset + devOffset }
  · rw [h'] at h; cases h
  · rw [h'] at h; cases h
  · rw [h'] at h; cases h
  rw [h', postRequest] at h
  cases h
  exact ⟨hseg, type, rfl, rfl⟩

end Strategy

/-! ## The posted chain -/

/-- The data descriptors of a posted chain: all but the header and the status byte. -/
def dataSegments (sg : List SgEntry) : List SgEntry := (sg.drop 1).dropLast

theorem dataSegments_requestChain (req type : ℕ) (bio : Bio) :
    dataSegments (requestChain req type bio) =
      dataLoop bio.bcount (if type = VIRTIO_BLK_T_OUT then VRING_DESC_F_READ else VRING_DESC_F_WRITE)
        bio.bcount 0 bio.data (bio.data % pageSize) := by
  simp [dataSegments, requestChain]

section Chain

variable {drv : VirtioBlk} {devOffset req : ℕ} {bio : Bio} {r : BlkReq} {sg : List SgEntry}

/-- **A posted chain is well formed**: the header at the request names the sector
`(bio_offset + offset) / 512`, the data descriptors tile the buffer in order, each inside one
page, and the status byte follows the header in the request. -/
theorem virtioBlkStrategy_posted (h : virtioBlkStrategy drv devOffset req bio = .posted r sg) :
    r.sector = (bio.offset + devOffset) / sectorSize ∧ r.bio.isSome ∧
      sg.head? = some ⟨req, outhdrSize, VRING_DESC_F_READ⟩ ∧
      sg.getLast? = some ⟨req + outhdrSize, 1, VRING_DESC_F_WRITE⟩ ∧
      (∀ e ∈ dataSegments sg, 0 < e.len ∧ e.addr % pageSize + e.len ≤ pageSize) ∧
      (dataSegments sg).flatMap SgEntry.bytes = List.range' bio.data bio.bcount := by
  obtain ⟨-, type, rfl, rfl⟩ := virtioBlkStrategy_eq_posted h
  obtain ⟨hall, hbytes⟩ := @dataLoop_tiles bio.bcount
    (if type = VIRTIO_BLK_T_OUT then VRING_DESC_F_READ else VRING_DESC_F_WRITE)
    bio.bcount 0 bio.data (bio.data % pageSize) (by omega) (Nat.zero_le _) (Nat.mod_lt _ (by decide))
    fun _ => rfl
  rw [dataSegments_requestChain]
  refine ⟨rfl, rfl, rfl, ?_, fun e he => (hall e he).2, by simpa using hbytes⟩
  rw [requestChain, List.getLast?_concat]

/-- A posted chain has one data descriptor for each page the buffer meets. -/
theorem length_dataSegments (h : virtioBlkStrategy drv devOffset req bio = .posted r sg) :
    (dataSegments sg).length =
      if bio.bcount = 0 then 0 else (bio.data % pageSize + bio.bcount - 1) / pageSize + 1 := by
  obtain ⟨-, type, -, rfl⟩ := virtioBlkStrategy_eq_posted h
  rw [dataSegments_requestChain, length_dataLoop _ _ _ _ (by omega) (Nat.zero_le _)
    (Nat.mod_lt _ (by decide)) fun _ => rfl]
  simp [eq_comm]

/-- **The size check undercounts by one.**  A posted chain has at most `seg_max + 1` data
descriptors: `bio_bcount / page_size + 1` does not count the page a buffer that starts inside
a page runs into. -/
theorem dataSegments_le (h : virtioBlkStrategy drv devOffset req bio = .posted r sg) :
    (dataSegments sg).length ≤ drv.segMax + 1 := by
  have hseg := (virtioBlkStrategy_eq_posted h).1
  have hoff : bio.data % pageSize < pageSize := Nat.mod_lt _ (by decide)
  rw [length_dataSegments h]
  split
  · omega
  · unfold pageSize at *
    omega

end Chain

/-- A read request of 8192 bytes from a page start, on a device with `seg_max` 2. -/
def twoPageRead : Bio := ⟨BIO_READ, 0, 8192, 0⟩

/-- A read request of 4098 bytes from the last byte of a page: it meets three pages. -/
def straddlingRead : Bio := ⟨BIO_READ, 0, 4098, 4095⟩

theorem virtio_blk_bio_lost_and_overlong :
    (∃ drv devOffset req bio, ∀ status,
      biodoneCalls (virtioBlkStrategy drv devOffset req bio) status = []) ∧
    ∃ drv devOffset req bio r sg, virtioBlkStrategy drv devOffset req bio = .posted r sg ∧
      drv.segMax < (dataSegments sg).length :=
  ⟨⟨⟨2, false⟩, 0, 0, twoPageRead, fun _ => rfl⟩,
    ⟨2, false⟩, 0, 0, straddlingRead, _, _, rfl, by decide⟩

end Osv.Drivers
