import Osv.Bsd.Mbuf
import Osv.Lib.Transition

/-!
# virtio-net: who frees an mbuf chain, and how long received mbufs are

`virtio_net::tx(m_head)` (`drivers/virtio-net.cc`) allocates a `virtio_net_req` whose
`unique_ptr` `um` takes the chain, so that deleting the request `m_freem`s it.  For a packet
with checksum or TSO offload, `tx_offload` then reads the Ethernet, IP and TCP headers, calling
`m_pullup` whenever the first mbuf is too short; it returns the new head, or `NULL` once the
chain is gone: `m_pullup` frees the chain when it fails, and a TSO packet with `TH_CWR` on a
device without ECN is `m_freem`ed by `tx_offload` itself.  `tx` posts the header and the
non-empty mbufs of the new chain to the tx ring, or deletes the request when it cannot.
`tx_gc` deletes every request the device has given back.

`receiver` takes used buffers from the rx ring: a packet's first buffer gets the length the
device reports, its follow-on buffers (`num_buffers` of them, with mergeable buffers) that
length clamped to their `m_len`; `m_adj` then strips the virtio header.  `fill_rx_ring` posts
clusters of `MCLBYTES` bytes.

**The model.**  The tx side is a system (`txSystem`) over the mbuf heap and the requests on the
ring: the stack hands `tx` a chain it owns, with offload flags the interface advertises; the
device gives requests back in order; `tx_gc` collects them.  The ring's own state is
`Osv.Drivers.Vring`'s: here whether it has room and whether `add_buf` succeeds are part of the
call.  The rx side is one pass of `receiver` over the used entries the device reports.

**What holds.**  On an interface without offload, in every reachable state no mbuf has been
freed twice, and every descriptor on the ring points into the chain of its request, none of
whose mbufs has been freed (`inv_reachable`).  Follow-on rx buffers keep at most their posted
length (`receivePacket_follow_le`).

**What does not** (`virtio_net_double_free_and_overlong_rx`).  With offload, the request still
owns the original head after `tx_offload` has freed the chain: `tx` deletes the request and
frees it again (`tx_cwr_frees_twice`).  And the first rx buffer takes whatever length the device
reports, past the `MCLBYTES` posted for it.
-/

namespace Osv.Drivers

open Osv.Bsd LinkedList Transition

/-! ## Constants -/

/-- `sizeof(struct ether_header)`, `sizeof(struct ether_vlan_header)`, `sizeof(struct ip)` and
`sizeof(struct tcphdr)`. -/
def ETHER_HDR_LEN : ℕ := 14
def ETHER_VLAN_HDR_LEN : ℕ := 18
def IP_HDR_LEN : ℕ := 20
def TCP_HDR_LEN : ℕ := 20

def ETHERTYPE_IP : ℕ := 0x0800
def ETHERTYPE_VLAN : ℕ := 0x8100
def IPPROTO_TCP : ℕ := 6
def TH_CWR : ℕ := 0x80

/-- The offload flags of `m_pkthdr.csum_flags` the driver reads. -/
def CSUM_TCP : ℕ := 0x0002
def CSUM_UDP : ℕ := 0x0004
def CSUM_TSO : ℕ := 0x0020
def VIRTIO_NET_CSUM_OFFLOAD : ℕ := CSUM_TCP ||| CSUM_UDP

/-- `virtio_net_hdr` flags and GSO types. -/
def VIRTIO_NET_HDR_F_NEEDS_CSUM : ℕ := 1
def VIRTIO_NET_HDR_GSO_TCPV4 : ℕ := 1
def VIRTIO_NET_HDR_GSO_ECN : ℕ := 0x80

/-- `MCLBYTES`, the size of the clusters `fill_rx_ring` posts. -/
def MCLBYTES : ℕ := 2048

/-! ## tx_offload -/

/-- A `virtio_net_hdr`. -/
structure NetHdr where
  flags : ℕ
  gsoType : ℕ
  hdrLen : ℕ
  gsoSize : ℕ
  csumStart : ℕ
  csumOffset : ℕ
  deriving DecidableEq, Repr

/-- The header of a new request, which its constructor zeroes. -/
def NetHdr.zero : NetHdr := ⟨0, 0, 0, 0, 0, 0⟩

/-- The device's settings the tx path reads: the mbuf sizes, `_tso_ecn`, and the offloads the
interface advertises in `if_hwassist`, which bound the `csum_flags` the stack sets. -/
structure NetDevice where
  geometry : MbufGeometry
  tsoEcn : Bool
  hwassist : ℕ
  deriving DecidableEq, Repr

variable (dev : NetDevice)

/-- `if (m->m_len < need) m = m_pullup(m, need)`. -/
def pullupTo (allocOk : Bool) (h : MbufHeap) (m need : ℕ) : MbufHeap × Option ℕ :=
  if (h.store m).len < need then h.mPullup dev.geometry allocOk m need else (h, some m)

/-- The TSO part of `tx_offload`, once the IP header is in the first mbuf. -/
def txOffloadTso (allocOk : Bool) (h : MbufHeap) (m csumStart : ℕ) (hdr : NetHdr) :
    MbufHeap × Option ℕ × NetHdr :=
  match pullupTo dev allocOk h m (csumStart + TCP_HDR_LEN) with
  | (h, none) => (h, none, hdr)
  | (h, some m) =>
      let hdr := { hdr with
        gsoType := VIRTIO_NET_HDR_GSO_TCPV4
        hdrLen := csumStart + ((h.store m).byte (csumStart + 12)).toNat / 16 * 4
        gsoSize := (h.store m).hdr.tsoSegsz % 2 ^ 16 }
      if ((h.store m).byte (csumStart + 13)).toNat &&& TH_CWR ≠ 0 then
        if dev.tsoEcn then (h, some m, { hdr with flags := hdr.flags ||| VIRTIO_NET_HDR_GSO_ECN })
        else (h.mFreem (some m), none, hdr)
      else (h, some m, hdr)

/-- The IPv4 part of `tx_offload`, once the Ethernet header is in the first mbuf. -/
def txOffloadIp (allocOk : Bool) (h : MbufHeap) (m ipOffset : ℕ) (hdr : NetHdr) :
    MbufHeap × Option ℕ × NetHdr :=
  match pullupTo dev allocOk h m (ipOffset + IP_HDR_LEN) with
  | (h, none) => (h, none, hdr)
  | (h, some m) =>
      let ipProto := ((h.store m).byte (ipOffset + 9)).toNat
      let csumStart := ipOffset + ((h.store m).byte ipOffset &&& 0x0f).toNat * 4
      let flags := (h.store m).hdr.csumFlags
      let hdr := if flags &&& VIRTIO_NET_CSUM_OFFLOAD ≠ 0 then
          { hdr with
            flags := hdr.flags ||| VIRTIO_NET_HDR_F_NEEDS_CSUM
            csumStart := csumStart
            csumOffset := (h.store m).hdr.csumData % 2 ^ 16 }
        else hdr
      if flags &&& CSUM_TSO ≠ 0 then
        if ipProto ≠ IPPROTO_TCP then (h, some m, hdr)
        else txOffloadTso dev allocOk h m csumStart hdr
      else (h, some m, hdr)

/-- `tx_offload(m, hdr)`: the heap, the new head or `NULL`, and the header it fills in.
`allocOk` is whether an `MGET` in `m_pullup` succeeds. -/
def txOffload (allocOk : Bool) (h : MbufHeap) (m : ℕ) (hdr : NetHdr) :
    MbufHeap × Option ℕ × NetHdr :=
  match pullupTo dev allocOk h m ETHER_HDR_LEN with
  | (h, none) => (h, none, hdr)
  | (h, some m) =>
      if (h.store m).be16 12 = ETHERTYPE_VLAN then
        match pullupTo dev allocOk h m ETHER_VLAN_HDR_LEN with
        | (h, none) => (h, none, hdr)
        | (h, some m) =>
            if (h.store m).be16 16 = ETHERTYPE_IP then
              txOffloadIp dev allocOk h m ETHER_VLAN_HDR_LEN hdr
            else (h, some m, hdr)
      else if (h.store m).be16 12 = ETHERTYPE_IP then txOffloadIp dev allocOk h m ETHER_HDR_LEN hdr
      else (h, some m, hdr)

/-! ## tx and tx_gc -/

/-- A `virtio_net_req`: its header, `num_buffers`, and the chain `um` owns. -/
structure NetReq where
  hdr : NetHdr
  numBuffers : ℕ
  um : Option ℕ
  deriving DecidableEq, Repr

/-- A descriptor of a tx chain: the request's header, or `m_len` bytes of an mbuf's data. -/
inductive TxDesc
  | hdr
  | data (m len : ℕ)
  deriving DecidableEq, Repr

/-- The loop `for (m = m_head; m != NULL; m = m->m_next)` of `tx`, with fuel: a descriptor for
each mbuf with data. -/
def txDescs (h : MbufHeap) : ℕ → Option ℕ → List TxDesc
  | 0, _ => []
  | _ + 1, none => []
  | fuel + 1, some m =>
      (if (h.store m).len ≠ 0 then [.data m (h.store m).len] else []) ++
        txDescs h fuel (h.store m).next

/-- A request on the tx ring, with the descriptors `tx` posted for it. -/
structure TxPosted where
  req : NetReq
  descs : List TxDesc
  deriving DecidableEq, Repr

/-- The mbuf heap, and the requests on the tx ring: posted, and given back by the device. -/
structure TxState where
  heap : MbufHeap
  avail : List TxPosted
  used : List TxPosted

namespace TxState

/-- `delete req`: the `unique_ptr` `m_freem`s the chain it owns. -/
def deleteReq (h : MbufHeap) (r : NetReq) : MbufHeap := h.mFreem r.um

/-- `tx_gc()`: delete every request the device has given back. -/
def txGc (s : TxState) : TxState :=
  { s with heap := s.used.foldl (fun h p => deleteReq h p.req) s.heap, used := [] }

/-- What `tx` does once the head is known: post the header and the mbufs with data, or delete
the request when the ring has no room and nothing to collect, or `add_buf` fails. -/
def txPost (s : TxState) (r : NetReq) (head : ℕ) (room addOk : Bool) : TxState × Bool :=
  let descs := TxDesc.hdr :: txDescs s.heap s.heap.nextId (some head)
  let r := { r with numBuffers := r.numBuffers + (descs.length - 1) }
  if room = false ∧ s.used = [] then ({ s with heap := deleteReq s.heap r }, false)
  else
    let s := if room then s else s.txGc
    if addOk then ({ s with avail := s.avail ++ [⟨r, descs⟩] }, true)
    else ({ s with heap := deleteReq s.heap r }, false)

/-- `tx(m_head)`.  `allocOk` is the outcome of an `MGET` in `m_pullup`, `room` that of
`avail_ring_has_room` and `addOk` that of `add_buf`. -/
def tx (s : TxState) (head : ℕ) (allocOk room addOk : Bool) : TxState × Bool :=
  let r : NetReq := ⟨NetHdr.zero, 0, some head⟩
  if (s.heap.store head).hdr.csumFlags ≠ 0 then
    match txOffload dev allocOk s.heap head r.hdr with
    | (h, none, _) => ({ s with heap := deleteReq h r }, false)
    | (h, some m, hdr) => txPost { s with heap := h } { r with hdr := hdr } m room addOk
  else txPost s r head room addOk

/-- The requests on the ring, oldest first: the device gives them back in the order `tx`
posted them. -/
def reqs (s : TxState) : List TxPosted := s.used ++ s.avail

/-- The mbufs the chain from `p` visits. -/
def ChainOf (s : TxState) (p : Option ℕ) (l : List ℕ) : Prop := Chain s.heap.next p l

/-- The chain `l` is the stack's to hand over: allocated, not freed, and in no request on the
ring. -/
def Owns (s : TxState) (l : List ℕ) : Prop :=
  ∀ i ∈ l, i < s.heap.nextId ∧ i ∉ s.heap.frees ∧
    ∀ p ∈ s.used ++ s.avail, ∀ l', s.ChainOf p.req.um l' → i ∉ l'

end TxState

/-- What the driver and the stack can do: `tx` of a chain the stack owns, with `csum_flags`
among the offloads of `if_hwassist`; the device giving the oldest request back; `tx_gc`. -/
inductive TxOp
  | tx (head : ℕ) (allocOk room addOk : Bool)
  | use
  | gc
  deriving DecidableEq, Repr

/-- The tx path as a system, from an empty ring and no mbuf freed. -/
def txSystem : System TxState TxOp where
  init s := s.avail = [] ∧ s.used = [] ∧ s.heap.frees = []
  step s op t := match op with
    | .tx head allocOk room addOk =>
        (∃ l, s.ChainOf (some head) l ∧ s.Owns l) ∧
          (s.heap.store head).hdr.csumFlags &&& dev.hwassist = (s.heap.store head).hdr.csumFlags ∧
          t = (s.tx dev head allocOk room addOk).1
    | .use => ∃ p rest, s.avail = p :: rest ∧ t = { s with avail := rest, used := s.used ++ [p] }
    | .gc => t = s.txGc

/-! ## Ownership without offload -/

theorem forall₂_append_left {α β : Type*} {R : α → β → Prop} :
    ∀ {xs ys : List α} {ls : List β}, List.Forall₂ R (xs ++ ys) ls →
      ∃ l₁ l₂, ls = l₁ ++ l₂ ∧ List.Forall₂ R xs l₁ ∧ List.Forall₂ R ys l₂
  | [], _, _, h => ⟨[], _, rfl, .nil, h⟩
  | x :: xs, ys, ls, h => by
      obtain ⟨l, ls, hx, hrest, rfl⟩ := List.forall₂_cons_left_iff.mp h
      obtain ⟨l₁, l₂, rfl, h₁, h₂⟩ := forall₂_append_left hrest
      exact ⟨l :: l₁, l₂, rfl, .cons hx h₁, h₂⟩

theorem forall₂_mem_left {α β : Type*} {R : α → β → Prop} {x : α} :
    ∀ {xs : List α} {ys : List β}, List.Forall₂ R xs ys → x ∈ xs → ∃ y ∈ ys, R x y
  | _, _, .nil, hx => absurd hx List.not_mem_nil
  | _ :: _, y :: _, .cons hxy hrest, hx => by
      rcases List.mem_cons.mp hx with rfl | hx
      · exact ⟨y, List.mem_cons_self, hxy⟩
      · obtain ⟨y', hy', h'⟩ := forall₂_mem_left hrest hx
        exact ⟨y', List.mem_cons_of_mem _ hy', h'⟩

theorem forall₂_mem_right {α β : Type*} {R : α → β → Prop} {y : β} :
    ∀ {xs : List α} {ys : List β}, List.Forall₂ R xs ys → y ∈ ys → ∃ x ∈ xs, R x y
  | _, _, .nil, hy => absurd hy List.not_mem_nil
  | x :: _, _ :: _, .cons hxy hrest, hy => by
      rcases List.mem_cons.mp hy with rfl | hy
      · exact ⟨x, List.mem_cons_self, hxy⟩
      · obtain ⟨x', hx', h'⟩ := forall₂_mem_right hrest hy
        exact ⟨x', List.mem_cons_of_mem _ hx', h'⟩

/-- The data descriptors `tx` builds point into the chain it walks. -/
theorem txDescs_mem {h : MbufHeap} {m len : ℕ} :
    ∀ {fuel : ℕ} {p : Option ℕ} {l : List ℕ}, Chain h.next p l →
      TxDesc.data m len ∈ txDescs h fuel p → m ∈ l
  | 0, _, _, _, hd => by simp [txDescs] at hd
  | _ + 1, none, _, _, hd => by simp [txDescs] at hd
  | fuel + 1, some a, l, hc, hd => by
      obtain ⟨l', rfl, hc'⟩ := chain_some.mp hc
      simp only [txDescs, List.mem_append] at hd
      rcases hd with hd | hd
      · by_cases hlen : (h.store a).len ≠ 0
        · rw [if_pos hlen, List.mem_singleton] at hd
          cases hd
          exact List.mem_cons_self
        · rw [if_neg hlen] at hd
          exact absurd hd List.not_mem_nil
      · exact List.mem_cons_of_mem _ (txDescs_mem hc' hd)

namespace TxState

/-- Deleting a request frees its chain. -/
theorem deleteReq_eq {h : MbufHeap} {r : NetReq} {l : List ℕ} (hc : Chain h.next r.um l)
    (hlt : ∀ i ∈ l, i < h.nextId) : deleteReq h r = { h with frees := h.frees ++ l } :=
  MbufHeap.mFreem_chain hc hlt

/-- Deleting requests one after another frees their chains one after another. -/
theorem foldl_deleteReq :
    ∀ {h : MbufHeap} {ps : List TxPosted} {ls : List (List ℕ)},
      List.Forall₂ (fun p l => Chain h.next p.req.um l) ps ls → (∀ i ∈ ls.flatten, i < h.nextId) →
      ps.foldl (fun h p => deleteReq h p.req) h = { h with frees := h.frees ++ ls.flatten }
  | _, [], _, .nil, _ => by simp
  | h, p :: ps, l :: ls, .cons hp hrest, hlt => by
      have hlt' : ∀ i ∈ l, i < h.nextId := fun i hi => hlt i (by simp [hi])
      rw [List.foldl_cons, deleteReq_eq hp hlt',
        foldl_deleteReq (h := { h with frees := h.frees ++ l }) hrest
          fun i hi => hlt i (by simp_all)]
      simp

variable {s : TxState} {l : List ℕ}

/-- `tx_gc` changes no mbuf and allocates none. -/
theorem txGc_store_nextId :
    ∀ (ps : List TxPosted) (h : MbufHeap),
      (ps.foldl (fun h p => deleteReq h p.req) h).store = h.store ∧
        (ps.foldl (fun h p => deleteReq h p.req) h).nextId = h.nextId
  | [], _ => ⟨rfl, rfl⟩
  | p :: ps, h => by
      obtain ⟨hs, hn⟩ := txGc_store_nextId ps (deleteReq h p.req)
      exact ⟨hs.trans (MbufHeap.store_mFreem _), hn.trans (MbufHeap.nextId_mFreem _)⟩

/-- The request `p` owns the chain `l`: `um` heads it, and every data descriptor of `p` points
into it. -/
def ReqOwns (s : TxState) (p : TxPosted) (l : List ℕ) : Prop :=
  s.ChainOf p.req.um l ∧ ∀ m len, TxDesc.data m len ∈ p.descs → m ∈ l

/-- Which chains the requests own depends on the mbufs only. -/
theorem reqOwns_of_store {t : TxState} (hstore : t.heap.store = s.heap.store) :
    t.ReqOwns = s.ReqOwns := by
  unfold ReqOwns ChainOf MbufHeap.next
  rw [hstore]

theorem chainOf_of_store {t : TxState} (hstore : t.heap.store = s.heap.store) :
    t.ChainOf = s.ChainOf := by
  unfold ChainOf MbufHeap.next
  rw [hstore]

/-- **The invariant of the tx path.**  The chains the requests on the ring own, and the mbufs
freed so far, are all different mbufs, and all allocated. -/
def Inv (s : TxState) : Prop :=
  ∃ ls, List.Forall₂ s.ReqOwns s.reqs ls ∧ (ls.flatten ++ s.heap.frees).Nodup ∧
    ∀ i ∈ ls.flatten, i < s.heap.nextId

/-- A chain the stack owns is off every chain on the ring. -/
theorem Owns.not_mem {ls : List (List ℕ)} (hown : s.Owns l)
    (hall : List.Forall₂ s.ReqOwns s.reqs ls) {i : ℕ} (hi : i ∈ l) : i ∉ ls.flatten := by
  intro hin
  obtain ⟨l', hl', hil'⟩ := List.mem_flatten.mp hin
  obtain ⟨p, hp, hpl⟩ := forall₂_mem_right hall hl'
  exact (hown i hi).2.2 p hp l' hpl.1 hil'

/-- No mbuf is freed twice. -/
theorem Inv.frees_nodup (hinv : s.Inv) : s.heap.frees.Nodup := by
  obtain ⟨ls, -, hnd, -⟩ := hinv
  exact (List.nodup_append.mp hnd).2.1

/-- **The descriptors on the ring point at live mbufs.** -/
theorem Inv.desc_live (hinv : s.Inv) {p : TxPosted} (hp : p ∈ s.reqs) {m len : ℕ}
    (hd : TxDesc.data m len ∈ p.descs) : m ∉ s.heap.frees := by
  obtain ⟨ls, hall, hnd, -⟩ := hinv
  obtain ⟨l, hl, hpl⟩ := forall₂_mem_left hall hp
  have hm : m ∈ ls.flatten := List.mem_flatten.mpr ⟨l, hl, hpl.2 m len hd⟩
  exact fun hf => (List.nodup_append.mp hnd).2.2 m hm m hf rfl

/-- Handing over a chain the stack owns keeps the chains and the freed mbufs apart. -/
theorem Owns.nodup {ls : List (List ℕ)} (hown : s.Owns l) (hc : s.ChainOf (some head) l)
    (hall : List.Forall₂ s.ReqOwns s.reqs ls) (hnd : (ls.flatten ++ s.heap.frees).Nodup) :
    (ls.flatten ++ (l ++ s.heap.frees)).Nodup := by
  obtain ⟨hls, hfrees, hdisj⟩ := List.nodup_append.mp hnd
  refine List.nodup_append.mpr ⟨hls, List.nodup_append.mpr ⟨hc.nodup, hfrees, ?_⟩, ?_⟩
  · rintro a ha b hb rfl
    exact (hown a ha).2.1 hb
  · rintro a ha b hb rfl
    rcases List.mem_append.mp hb with hb | hb
    · exact hown.not_mem hall hb ha
    · exact hdisj a ha a hb rfl

theorem Inv.use (hinv : s.Inv) {p : TxPosted} {rest : List TxPosted} (hav : s.avail = p :: rest) :
    ({ s with avail := rest, used := s.used ++ [p] } : TxState).Inv := by
  obtain ⟨ls, hall, hnd, hlt⟩ := hinv
  -- the ring is the same list of requests: the oldest posted one is now given back
  have hreqs : ({ s with avail := rest, used := s.used ++ [p] } : TxState).reqs = s.reqs := by
    simp [reqs, hav]
  exact ⟨ls, by rw [hreqs]; exact hall, hnd, hlt⟩

/-- What `tx_gc` does to the heap: it frees the chains of the requests given back. -/
theorem txGc_heap {lu : List (List ℕ)} (hu : List.Forall₂ s.ReqOwns s.used lu)
    (hlt : ∀ i ∈ lu.flatten, i < s.heap.nextId) :
    s.txGc.heap = { s.heap with frees := s.heap.frees ++ lu.flatten } :=
  foldl_deleteReq (hu.imp fun _ _ h => h.1) hlt

theorem Inv.txGc (hinv : s.Inv) : s.txGc.Inv := by
  obtain ⟨ls, hall, hnd, hlt⟩ := hinv
  obtain ⟨lu, la, rfl, hu, ha⟩ := forall₂_append_left hall
  have hheap := txGc_heap hu fun i hi => hlt i (by simp [hi])
  have hro : s.txGc.ReqOwns = s.ReqOwns := reqOwns_of_store (txGc_store_nextId _ _).1
  refine ⟨la, by rw [hro]; exact ha, ?_, fun i hi => ?_⟩
  · -- the collected chains move from the ring to the freed mbufs
    rw [hheap]
    refine (List.perm_iff_count.mpr fun a => ?_).nodup_iff.mp hnd
    simp only [List.flatten_append, List.count_append]
    omega
  · rw [hheap]
    exact hlt i (by simp [hi])

theorem Owns.txGc (hinv : s.Inv) (hown : s.Owns l) : s.txGc.Owns l := by
  obtain ⟨ls, hall, -, hlt⟩ := hinv
  obtain ⟨lu, la, rfl, hu, -⟩ := forall₂_append_left hall
  have hheap := txGc_heap hu fun i hi => hlt i (by simp [hi])
  intro i hi
  obtain ⟨hnext, hfree, hreq⟩ := hown i hi
  refine ⟨by rw [hheap]; exact hnext, ?_, fun p hp l' hl' =>
    hreq p ?_ l' (by rwa [chainOf_of_store (txGc_store_nextId _ _).1] at hl')⟩
  · rw [hheap, List.mem_append, not_or]
    exact ⟨hfree, fun hin => hown.not_mem hall hi (by simp [hin])⟩
  · simp only [TxState.txGc, List.nil_append] at hp
    exact List.mem_append_right _ hp

theorem Inv.delete (hinv : s.Inv) {r : NetReq} (hc : s.ChainOf (some head) l) (hown : s.Owns l)
    (hum : r.um = some head) : ({ s with heap := deleteReq s.heap r } : TxState).Inv := by
  obtain ⟨ls, hall, hnd, hlt⟩ := hinv
  have hro : ({ s with heap := deleteReq s.heap r } : TxState).ReqOwns = s.ReqOwns :=
    reqOwns_of_store (MbufHeap.store_mFreem _)
  refine ⟨ls, by rw [hro]; exact hall, ?_, fun i hi => by simpa [deleteReq] using hlt i hi⟩
  rw [deleteReq_eq (hum ▸ hc) fun i hi => (hown i hi).1]
  exact ((List.perm_append_comm.append_left _).nodup_iff).mp (hown.nodup hc hall hnd)

theorem Inv.post (hinv : s.Inv) {r : NetReq} {descs : List TxDesc} (hc : s.ChainOf (some head) l)
    (hown : s.Owns l) (hum : r.um = some head) (hdesc : ∀ m len, TxDesc.data m len ∈ descs → m ∈ l) :
    ({ s with avail := s.avail ++ [⟨r, descs⟩] } : TxState).Inv := by
  obtain ⟨ls, hall, hnd, hlt⟩ := hinv
  have hreqs : ({ s with avail := s.avail ++ [⟨r, descs⟩] } : TxState).reqs =
      s.reqs ++ [⟨r, descs⟩] := by
    simp [reqs]
  refine ⟨ls ++ [l], ?_, ?_, ?_⟩
  · rw [hreqs]
    exact List.rel_append hall (.cons ⟨hum ▸ hc, hdesc⟩ .nil)
  · simpa using hown.nodup hc hall hnd
  · intro i hi
    simp only [List.flatten_append, List.flatten_cons, List.flatten_nil, List.append_nil,
      List.mem_append] at hi
    rcases hi with hi | hi
    · exact hlt i hi
    · exact (hown i hi).1

/-- **`tx` keeps the invariant once the head is known**, whether it posts the request or
deletes it. -/
theorem Inv.txPost (hinv : s.Inv) (hc : s.ChainOf (some head) l) (hown : s.Owns l)
    {r : NetReq} (hum : r.um = some head) (room addOk : Bool) :
    (s.txPost r head room addOk).1.Inv := by
  unfold TxState.txPost
  by_cases hA : room = false ∧ s.used = []
  · rw [if_pos hA]
    exact hinv.delete hc hown hum
  rw [if_neg hA]
  -- `tx_gc` first when the ring is full; it keeps the chains and what the stack owns
  have h₁ : (if room then s else s.txGc).Inv ∧ (if room then s else s.txGc).Owns l ∧
      (if room then s else s.txGc).heap.store = s.heap.store := by
    cases room
    · exact ⟨hinv.txGc, hown.txGc hinv, (txGc_store_nextId _ _).1⟩
    · exact ⟨hinv, hown, rfl⟩
  obtain ⟨hinv₁, hown₁, hstore⟩ := h₁
  have hc₁ : (if room then s else s.txGc).ChainOf (some head) l := by
    unfold ChainOf MbufHeap.next
    rw [hstore]
    exact hc
  have hdesc : ∀ m len, TxDesc.data m len ∈
      TxDesc.hdr :: txDescs s.heap s.heap.nextId (some head) → m ∈ l := by
    intro m len hd
    rcases List.mem_cons.mp hd with hd | hd
    · cases hd
    · exact txDescs_mem hc hd
  cases addOk
  · exact hinv₁.delete hc₁ hown₁ hum
  · exact hinv₁.post hc₁ hown₁ hum hdesc

end TxState

section NoOffload

variable {dev}

theorem inv_init {s : TxState} (hs : (txSystem dev).init s) : s.Inv := by
  obtain ⟨ha, hu, hf⟩ := hs
  exact ⟨[], by simp [TxState.reqs, ha, hu], by simp [hf], by simp⟩

/-- **One step keeps the invariant** on an interface that advertises no offload. -/
theorem TxState.Inv.step (hdev : dev.hwassist = 0) {s t : TxState} {op : TxOp}
    (hinv : s.Inv) (hstep : (txSystem dev).step s op t) : t.Inv := by
  cases op with
  | tx head allocOk room addOk =>
      obtain ⟨⟨l, hc, hown⟩, hflags, rfl⟩ := hstep
      -- `csum_flags` is within `if_hwassist`, so `tx_offload` is not called
      have h0 : (s.heap.store head).hdr.csumFlags = 0 := by
        simpa [hdev] using hflags.symm
      simp only [TxState.tx, h0, ne_eq, not_true_eq_false, if_false]
      exact hinv.txPost hc hown rfl room addOk
  | use =>
      obtain ⟨p, rest, hav, rfl⟩ := hstep
      exact hinv.use hav
  | gc =>
      subst hstep
      exact hinv.txGc

/-- **Without offload the tx path frees no mbuf twice**, and every descriptor on the ring
points at an mbuf of its request's chain that has not been freed: in every reachable state. -/
theorem inv_reachable (hdev : dev.hwassist = 0) {s : TxState} (hs : Reachable (txSystem dev) s) :
    s.Inv :=
  Inductive.reachable ⟨fun _ => inv_init, fun _ _ _ hinv hstep => hinv.step hdev hstep⟩ hs

end NoOffload

/-! ## A TSO packet with TH_CWR -/

section Cwr

variable {dev}

/-- **A TSO packet with `TH_CWR` is freed twice** on a device without ECN: `tx_offload`
`m_freem`s the chain and returns `NULL`, and `tx` then deletes the request, whose `um` still
owns the chain.  This holds for every such packet whose Ethernet, IPv4 and TCP headers are in
its first mbuf, whatever the rest of the chain and the ring. -/
theorem tx_cwr_frees_twice (hecn : dev.tsoEcn = false) {s : TxState} {head : ℕ} {l : List ℕ}
    (hc : s.ChainOf (some head) l) (hlt : ∀ i ∈ l, i < s.heap.nextId)
    (htso : (s.heap.store head).hdr.csumFlags &&& CSUM_TSO ≠ 0)
    (hip : (s.heap.store head).be16 12 = ETHERTYPE_IP)
    (htcp : ((s.heap.store head).byte (ETHER_HDR_LEN + 9)).toNat = IPPROTO_TCP)
    (hlen : ETHER_HDR_LEN + ((s.heap.store head).byte ETHER_HDR_LEN &&& 0x0f).toNat * 4 +
      TCP_HDR_LEN ≤ (s.heap.store head).len)
    (hcwr : ((s.heap.store head).byte
      (ETHER_HDR_LEN + ((s.heap.store head).byte ETHER_HDR_LEN &&& 0x0f).toNat * 4 + 13)).toNat &&&
        TH_CWR ≠ 0)
    (allocOk room addOk : Bool) :
    (s.tx dev head allocOk room addOk).1.heap.frees = s.heap.frees ++ l ++ l := by
  have hflags : (s.heap.store head).hdr.csumFlags ≠ 0 := by
    intro h0
    rw [h0] at htso
    exact htso rfl
  -- the headers are all in the first mbuf, so no `m_pullup` is called
  have h14 : ¬ (s.heap.store head).len < ETHER_HDR_LEN := by
    unfold ETHER_HDR_LEN TCP_HDR_LEN at *
    omega
  have h34 : ¬ (s.heap.store head).len < ETHER_HDR_LEN + IP_HDR_LEN := by
    unfold ETHER_HDR_LEN TCP_HDR_LEN IP_HDR_LEN at *
    omega
  have hnotvlan : (s.heap.store head).be16 12 ≠ ETHERTYPE_VLAN := by
    rw [hip]
    decide
  have hfree : s.heap.mFreem (some head) = { s.heap with frees := s.heap.frees ++ l } :=
    MbufHeap.mFreem_chain hc hlt
  simp only [TxState.tx, if_pos hflags, txOffload, pullupTo, if_neg h14, if_neg hnotvlan,
    if_pos hip, txOffloadIp, if_neg h34, if_pos htso, htcp, ne_eq, not_true_eq_false, if_false,
    txOffloadTso, if_neg (Nat.not_lt.mpr hlen), if_pos hcwr, hecn, Bool.false_eq_true,
    TxState.deleteReq]
  rw [MbufHeap.mFreem_chain (l := l) (by rw [hfree]; exact hc) (by rw [hfree]; exact hlt), hfree]

end Cwr

/-! ## The receive path -/

/-- What `fill_rx_ring` posts: a cluster of `MCLBYTES` bytes with a packet header, from
`m_getjcl(M_NOWAIT, MT_DATA, M_PKTHDR, MCLBYTES)`, with `m_len = MCLBYTES`. -/
def rxCluster : Mbuf := ⟨List.replicate MCLBYTES 0, MCLBYTES, true, some default, none⟩

/-- `fill_rx_ring` with room for `k` buffers: the clusters it allocates, and the descriptors
it posts, one of `m_len` bytes for each. -/
def fillRxRing : ℕ → MbufHeap → MbufHeap × List (ℕ × ℕ)
  | 0, h => (h, [])
  | k + 1, h =>
      let r := fillRxRing k ({ h with nextId := h.nextId + 1 }.set h.nextId rxCluster)
      (r.1, (h.nextId, rxCluster.len) :: r.2)

/-- `num_buffers` of the `virtio_net_hdr_mrg_rxbuf` at the start of the buffer. -/
def numBuffers (m : Mbuf) : ℕ := (m.byte 10).toNat + (m.byte 11).toNat * 256

/-- The loop `while (--nbufs > 0)` of `receiver`, for `n` more buffers, with the used entries
`(m, len)` left: each follow-on buffer gets the reported length clamped to its `m_len`, loses
`M_PKTHDR`, adds its length to the head's packet header, and is chained after `tail`.  It
stops early when the ring has no more used entries. -/
def rxFollow (head : ℕ) : ℕ → MbufHeap → ℕ → List (ℕ × ℕ) → MbufHeap × List (ℕ × ℕ)
  | 0, h, _, used => (h, used)
  | _ + 1, h, _, [] => (h, [])
  | n + 1, h, tail, (m, len) :: used =>
      let len := if (h.store m).len < len then (h.store m).len else len
      let h₁ := h.set m { h.store m with len := len, pkthdr := none }
      let h₂ := h₁.set head { h₁.store head with
        pkthdr := (h₁.store head).pkthdr.map fun ph => { ph with len := ph.len + len } }
      let h₃ := h₂.set tail { h₂.store tail with next := some m }
      rxFollow head n h₃ m used

/-- One packet of the loop of `receiver` over the used entries `(m, len)`: `none` when there
are none, and otherwise the heap, the packet handed to `if_input` (none for a runt, which is
freed), and the entries left.  `hdrSize` is `_hdr_size`. -/
def receivePacket (mergeable : Bool) (hdrSize : ℕ) (h : MbufHeap) :
    List (ℕ × ℕ) → Option (MbufHeap × Option ℕ × List (ℕ × ℕ))
  | [] => none
  | (m, len) :: used =>
      if len < hdrSize + ETHER_HDR_LEN then some ((h.mFree m).1, none, used)
      else
        let nbufs := if mergeable then numBuffers (h.store m) else 1
        let h₁ := h.set m { h.store m with
          len := len, pkthdr := some { (h.store m).hdr with len := len, csumFlags := 0 } }
        let r := rxFollow m (nbufs - 1) h₁ m used
        some (r.1.mAdj m hdrSize, some m, r.2)

/-- **Follow-on buffers keep at most their length.**  The loop never makes an `m_len`
longer. -/
theorem rxFollow_len_le (head : ℕ) :
    ∀ (n : ℕ) (h : MbufHeap) (tail : ℕ) (used : List (ℕ × ℕ)) (i : ℕ),
      ((rxFollow head n h tail used).1.store i).len ≤ (h.store i).len
  | 0, _, _, _, _ => Nat.le_refl _
  | _ + 1, _, _, [], _ => Nat.le_refl _
  | n + 1, h, tail, (m, len) :: used, i => by
      refine Nat.le_trans (rxFollow_len_le head n _ m used i) ?_
      -- of the three stores of one round, only the first changes a length, and shortens it
      rw [MbufHeap.len_set i, MbufHeap.len_set i]
      · by_cases hm : i = m
        · subst hm
          rw [MbufHeap.store_set_self]
          dsimp only
          split <;> omega
        · exact Nat.le_of_eq (congrArg (·.len) (MbufHeap.store_set_ne hm))
      all_goals rfl

/-- **The first buffer takes the reported length.**  Without mergeable buffers, a packet whose
reported length passes the runt check is handed up with its first mbuf `len - _hdr_size` long,
whatever was posted for it. -/
theorem receivePacket_head_len {hdrSize : ℕ} {h : MbufHeap} {m len : ℕ} {used : List (ℕ × ℕ)}
    (hm : m < h.nextId) (hlen : hdrSize + ETHER_HDR_LEN ≤ len) :
    ∃ h', receivePacket false hdrSize h ((m, len) :: used) = some (h', some m, used) ∧
      (h'.store m).len = len - hdrSize := by
  refine ⟨(h.set m { h.store m with
    len := len, pkthdr := some { (h.store m).hdr with len := len, csumFlags := 0 } }).mAdj m hdrSize,
      ?_, ?_⟩
  · simp only [receivePacket, if_neg (Nat.not_lt.mpr hlen), Bool.false_eq_true, if_false,
      Nat.sub_self, rxFollow]
  · refine (MbufHeap.mAdj_len_head (by simpa using hm) ?_).trans ?_
    · simp only [MbufHeap.store_set_self]
      omega
    · simp

/-- A packet of 4096 bytes reported for a cluster of `MCLBYTES` = 2048, at the start of an
empty rx ring. -/
def overlongRx : Option (MbufHeap × Option ℕ × List (ℕ × ℕ)) :=
  receivePacket false 10 (fillRxRing 1 ⟨fun _ => default, 0, []⟩).1 [(0, 4096)]

/-! ## The counterexamples -/

/-- An interface with checksum and TSO offload, on a host without `VIRTIO_NET_F_GUEST_ECN`. -/
def tsoDevice : NetDevice := ⟨⟨216, 160, 60⟩, false, CSUM_TCP ||| CSUM_UDP ||| CSUM_TSO⟩

/-- A 54-byte TCP segment over IPv4 with `TH_CWR` set: Ethernet header with type `0x0800`,
an IP header of length 5 words and protocol 6, and a TCP header whose flags byte is `0x80`. -/
def cwrSegment : List UInt8 :=
  List.replicate 12 0 ++ [0x08, 0x00, 0x45] ++ List.replicate 8 0 ++ [6] ++
    List.replicate 22 0 ++ [0x50, 0x80] ++ List.replicate 6 0

/-- The stack about to send `cwrSegment` with TSO, as one cluster at address 0. -/
def cwrState : TxState :=
  ⟨⟨fun i => if i = 0 then ⟨cwrSegment, 54, true, some ⟨54, CSUM_TSO, 0, 1448⟩, none⟩ else default,
    1, []⟩, [], []⟩

/-- The chain of `cwrState` is its one cluster. -/
theorem cwrState_chain : cwrState.ChainOf (some 0) [0] := .cons .nil

/-- `tx` of `cwrState` frees its cluster twice. -/
theorem cwrState_tx_frees :
    (cwrState.tx tsoDevice 0 true true true).1.heap.frees = [0, 0] :=
  tx_cwr_frees_twice rfl cwrState_chain (by simp [cwrState]) (by decide) (by decide) (by decide)
    (by decide) (by decide) true true true

theorem virtio_net_double_free_and_overlong_rx :
    (∃ s, Reachable (txSystem tsoDevice) s ∧ ¬ s.heap.frees.Nodup) ∧
    ∃ h' head rest, (fillRxRing 1 ⟨fun _ => default, 0, []⟩).2 = [(head, MCLBYTES)] ∧
      overlongRx = some (h', some head, rest) ∧ MCLBYTES < (h'.store head).len := by
  have howns : cwrState.Owns [0] := by
    intro i hi
    simp only [List.mem_singleton] at hi
    subst hi
    simp [cwrState]
  obtain ⟨h', hrx, hlen⟩ := @receivePacket_head_len 10 (fillRxRing 1 ⟨fun _ => default, 0, []⟩).1
    0 4096 [] (by decide) (by decide)
  refine ⟨⟨_, .step (.init (s := cwrState) ⟨rfl, rfl, rfl⟩) (l := .tx 0 true true true)
    ⟨⟨[0], cwrState_chain, howns⟩, by decide, rfl⟩, ?_⟩, h', 0, [], rfl, hrx, ?_⟩
  · rw [cwrState_tx_frees]
    decide
  · rw [hlen]
    decide

end Osv.Drivers
