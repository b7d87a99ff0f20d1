import Osv.Libc.PipeBuffer

/-!
# `pipe_buffer`: a lossless bounded FIFO

For any type of threads, every run of `pipeSystem` (any interleaving of `read` and `write`,
blocking or not, with any iovec arrays, by any threads, of `detach_sender` and
`detach_receiver`, and of wake-ups in any order) keeps `Inv`.  The invariant has a shared
part and a part per thread.

**Shared** (`Shared`).  The bytes reads returned, followed by `q`, are the bytes writes had
accepted (`fifo`), and `q` holds at most `max_buf` of them (`bound`).  The chunks of each write,
run together, are a prefix of its bytes (`isPrefix`); a write of at most 4096 bytes has one chunk,
all its bytes (`small`): its `needroom` wait is for room for all of them, and the copy after it
takes them at once.

**Per thread** (`ThreadOk`).  A write in progress has had accepted the bytes before its cursor
(`WriteOk`); a returned call's `uio_resid` dropped by the bytes it moved, a blocking write
returned with nothing left or no receiver, `EAGAIN` only before any byte was taken, and a
blocking read that asked for bytes and got none saw no sender and an empty queue
(`ResultOk`).

Each step replaces the state of one thread `t`: `Others p t` is the invariant without `t`, and
`Running p t w` adds the write `w` that `t` is in.  One lemma per section of `read` and `write`
takes these to `Inv` of what the section leaves (`Running.writeLoop`, `Running.roomTest`, ...).
-/

namespace Osv.Libc

open Transition

variable {τ β : Type*}

namespace Pipe

/-! ## The invariant -/

theorem sentBy_of_log {p p' : Pipe τ β} {cs : List (Chunk β)} (h : p'.log = p.log ++ cs) (i : ℕ) :
    p'.sentBy i = p.sentBy i ++ ((cs.filter fun c => c.id = i).map Chunk.bytes).flatten := by
  simp only [sentBy, h, List.filter_append, List.map_append, List.flatten_append]

theorem filter_id_eq_nil {cs : List (Chunk β)} {i : ℕ} (h : ∀ c ∈ cs, c.id ≠ i) :
    (cs.filter fun c => c.id = i) = [] :=
  List.filter_eq_nil_iff.mpr fun c hc => by simpa using h c hc

theorem sentBy_eq_nil {p : Pipe τ β} {i : ℕ} (h : ∀ c ∈ p.log, c.id ≠ i) : p.sentBy i = [] := by
  rw [sentBy, filter_id_eq_nil h, List.map_nil, List.flatten_nil]

/-- What a write in progress has done: the bytes before its cursor are those it had accepted,
and `uio_resid` counts the bytes after it. -/
structure WriteOk (p : Pipe τ β) (w : WriteCall β) : Prop where
  lt : w.id < p.next
  data : w.sent ++ w.rest.flatten = w.data
  resid : w.resid = w.rest.flatten.length
  resid0 : w.resid0 = w.data.length
  sentBy : p.sentBy w.id = w.sent
  chunks : ∀ c ∈ p.log, c.id = w.id → c.data = w.data

/-- What a returned call leaves. -/
structure ResultOk (p : Pipe τ β) (r : Result β) : Prop where
  lt : r.id < p.next
  resid : r.resid + r.bytes.length = r.resid0
  sentBy : r.write = true → p.sentBy r.id = r.bytes
  blocking : r.write = true → r.nonblock = false → r.resid = 0 ∨ p.receiver = false
  again : r.write = true → r.ret = EAGAIN → r.bytes = []
  eof : r.write = false → r.nonblock = false → 0 < r.resid0 → r.bytes = [] →
    r.sender = false ∧ r.empty = true

/-- What the call a thread is in, or returned from, has done. -/
def ThreadOk (p : Pipe τ β) : Thread β → Prop
  | .idle => True
  | .readWait id lens resid => id < p.next ∧ resid = lens.sum ∧ 0 < resid
  | .roomWait w => p.WriteOk w ∧ w.nonblock = false ∧ w.sent = [] ∧ (∀ c ∈ p.log, c.id ≠ w.id) ∧
      (w.resid0 ≤ 4096 → w.needroom = w.resid0)
  | .fullWait w => p.WriteOk w ∧ w.nonblock = false ∧ 4096 < w.resid0
  | .returned r => p.ResultOk r

/-- The queue, the log and the bytes delivered. -/
structure Shared (p : Pipe τ β) : Prop where
  fifo : p.delivered ++ p.q = p.accepted
  bound : p.q.length ≤ maxBuf
  fresh : ∀ c ∈ p.log, c.id < p.next
  isPrefix : ∀ c ∈ p.log, (p.sentBy c.id).IsPrefix c.data
  small : ∀ c ∈ p.log, c.data.length ≤ 4096 →
    c.bytes = c.data ∧ p.log.countP (fun c' => c'.id = c.id) = 1

/-- The invariant. -/
structure Inv (p : Pipe τ β) : Prop where
  shared : p.Shared
  ok : ∀ u, p.ThreadOk (p.thread u)
  distinct : ∀ u v, u ≠ v → ∀ i, (p.thread u).callId = some i → (p.thread v).callId ≠ some i

/-- The invariant for the threads other than `t`. -/
structure Others (p : Pipe τ β) (t : τ) : Prop where
  shared : p.Shared
  ok : ∀ u, u ≠ t → p.ThreadOk (p.thread u)
  distinct : ∀ u v, u ≠ t → v ≠ t → u ≠ v → ∀ i,
    (p.thread u).callId = some i → (p.thread v).callId ≠ some i

/-- The invariant for the threads other than `t`, and `t` in the write `w`. -/
structure Running (p : Pipe τ β) (t : τ) (w : WriteCall β) : Prop where
  others : p.Others t
  ok : p.WriteOk w
  own : ∀ u, u ≠ t → (p.thread u).callId ≠ some w.id

/-! ## Frame rules -/

theorem WriteOk.resid_add {p : Pipe τ β} {w : WriteCall β} (h : p.WriteOk w) :
    w.resid + w.sent.length = w.resid0 := by
  rw [h.resid, h.resid0, ← h.data, List.length_append, Nat.add_comm]

theorem ThreadOk.callId_lt {p : Pipe τ β} {th : Thread β} (h : p.ThreadOk th) {i : ℕ}
    (hi : th.callId = some i) : i < p.next := by
  cases th with
  | idle => cases hi
  | readWait => cases hi
  | roomWait w => cases hi; exact h.1.lt
  | fullWait w => cases hi; exact h.1.lt
  | returned r =>
      simp only [Thread.callId] at hi
      split at hi
      · cases hi; exact h.lt
      · cases hi

theorem WriteOk.mono {p p' : Pipe τ β} {w : WriteCall β} (h : p.WriteOk w) (hnext : p.next ≤ p'.next)
    {cs : List (Chunk β)} (hlog : p'.log = p.log ++ cs) (hcs : ∀ c ∈ cs, c.id ≠ w.id) :
    p'.WriteOk w := by
  refine ⟨by have := h.lt; omega, h.data, h.resid, h.resid0, ?_, ?_⟩
  · rw [sentBy_of_log hlog, h.sentBy, filter_id_eq_nil hcs, List.map_nil, List.flatten_nil,
      List.append_nil]
  · intro c hc hid
    rw [hlog, List.mem_append] at hc
    rcases hc with hc | hc
    · exact h.chunks c hc hid
    · exact absurd hid (hcs c hc)

/-- **Frame rule.**  A thread's invariant survives a step of another thread: a later call
number, chunks of other calls, and a receiver that may have gone. -/
theorem ThreadOk.mono {p p' : Pipe τ β} {th : Thread β} (h : p.ThreadOk th) (hnext : p.next ≤ p'.next)
    (hrecv : p'.receiver = true → p.receiver = true) {cs : List (Chunk β)}
    (hlog : p'.log = p.log ++ cs) (hcs : ∀ c ∈ cs, th.callId ≠ some c.id) : p'.ThreadOk th := by
  cases th with
  | idle => trivial
  | readWait id lens resid => exact ⟨by have := h.1; omega, h.2⟩
  | roomWait w =>
      have hne : ∀ c ∈ cs, c.id ≠ w.id := fun c hc he => hcs c hc (by rw [he]; rfl)
      refine ⟨h.1.mono hnext hlog hne, h.2.1, h.2.2.1, ?_, h.2.2.2.2⟩
      intro c hc
      rw [hlog, List.mem_append] at hc
      rcases hc with hc | hc
      · exact h.2.2.2.1 c hc
      · exact hne c hc
  | fullWait w =>
      have hne : ∀ c ∈ cs, c.id ≠ w.id := fun c hc he => hcs c hc (by rw [he]; rfl)
      exact ⟨h.1.mono hnext hlog hne, h.2⟩
  | returned r =>
      refine ⟨by have := h.lt; omega, h.resid, fun hw => ?_, fun hw hnb => ?_, h.again, h.eof⟩
      · have hne : ∀ c ∈ cs, c.id ≠ r.id := fun c hc he =>
          hcs c hc (by simp only [Thread.callId, hw, if_true, he])
        rw [sentBy_of_log hlog, h.sentBy hw, filter_id_eq_nil hne, List.map_nil, List.flatten_nil,
          List.append_nil]
      · rcases h.blocking hw hnb with h0 | h0
        · exact .inl h0
        · exact .inr (Bool.eq_false_iff.mpr fun h' => Bool.false_ne_true (h0 ▸ hrecv h'))

theorem Inv.others {p : Pipe τ β} (h : p.Inv) (t : τ) : p.Others t :=
  ⟨h.shared, fun u _ => h.ok u, fun u v _ _ huv => h.distinct u v huv⟩

/-- The invariant without `t` survives a step that only `t` takes part in. -/
theorem Others.mono {p p' : Pipe τ β} {t : τ} (h : p.Others t) (hshared : p'.Shared)
    (hthread : ∀ u, u ≠ t → p'.thread u = p.thread u) (hnext : p.next ≤ p'.next)
    (hrecv : p'.receiver = true → p.receiver = true) {cs : List (Chunk β)}
    (hlog : p'.log = p.log ++ cs) (hcs : ∀ u, u ≠ t → ∀ c ∈ cs, (p.thread u).callId ≠ some c.id) :
    p'.Others t := by
  refine ⟨hshared, fun u hu => ?_, fun u v hu hv huv i => ?_⟩
  · rw [hthread u hu]
    exact (h.ok u hu).mono hnext hrecv hlog (hcs u hu)
  · rw [hthread u hu, hthread v hv]
    exact h.distinct u v hu hv huv i

variable [DecidableEq τ]

@[simp] theorem setThread_thread_self (p : Pipe τ β) (t : τ) (th : Thread β) :
    (p.setThread t th).thread t = th := Function.update_self _ _ _

theorem setThread_thread_of_ne (p : Pipe τ β) {t u : τ} (th : Thread β) (h : u ≠ t) :
    (p.setThread t th).thread u = p.thread u := Function.update_of_ne h _ _

theorem Shared.setThread {p : Pipe τ β} (h : p.Shared) (t : τ) (th : Thread β) :
    (p.setThread t th).Shared :=
  ⟨h.fifo, h.bound, h.fresh, h.isPrefix, h.small⟩

theorem ThreadOk.setThread {p : Pipe τ β} {th : Thread β} (h : p.ThreadOk th) (t : τ) (th' : Thread β) :
    (p.setThread t th').ThreadOk th :=
  h.mono (Nat.le_refl _) id (List.append_nil _).symm fun _ hc => absurd hc List.not_mem_nil

/-- **Putting `t` back.**  The invariant without `t`, and `t` moved to a state that keeps its
own invariant and whose write number no other thread has. -/
theorem Others.setThread {p : Pipe τ β} {t : τ} (h : p.Others t) {th : Thread β} (hth : p.ThreadOk th)
    (hid : ∀ u, u ≠ t → ∀ i, th.callId = some i → (p.thread u).callId ≠ some i) :
    (p.setThread t th).Inv := by
  refine ⟨h.shared.setThread t th, fun u => ?_, fun u v huv i hu => ?_⟩
  · by_cases hu : u = t
    · rw [hu, setThread_thread_self]
      exact hth.setThread t th
    · rw [setThread_thread_of_ne p th hu]
      exact (h.ok u hu).setThread t th
  · by_cases hut : u = t
    · subst hut
      rw [setThread_thread_self] at hu
      rw [setThread_thread_of_ne p th (Ne.symm huv)]
      exact hid v (Ne.symm huv) i hu
    · rw [setThread_thread_of_ne p th hut] at hu
      by_cases hvt : v = t
      · subst hvt
        rw [setThread_thread_self]
        exact fun hv => hid u hut i hv hu
      · rw [setThread_thread_of_ne p th hvt]
        exact h.distinct u v hut hvt huv i hu

/-! ## The sections of `write` -/

section Write

variable {p p' : Pipe τ β} {t : τ} {w : WriteCall β}

omit [DecidableEq τ] in
theorem Inv.running (h : p.Inv) (ht : (p.thread t).callId = some w.id) (hw : p.WriteOk w) :
    p.Running t w :=
  ⟨h.others t, hw, fun u hu => h.distinct t u (Ne.symm hu) w.id ht⟩

/-- A write returns: its result keeps `ResultOk` when a blocking one has nothing left or no
receiver, and `EAGAIN` comes before any byte. -/
theorem Running.writeRet (h : p.Running t w) {ret : ℤ}
    (hblock : w.nonblock = false → w.resid = 0 ∨ p.receiver = false)
    (hagain : ret = EAGAIN → w.sent = []) : (p.writeRet t w ret).Inv := by
  refine h.others.setThread ⟨h.ok.lt, h.ok.resid_add, fun _ => h.ok.sentBy, fun _ => hblock,
    fun _ => hagain, fun hw => absurd hw (by simp)⟩ fun u hu i hi => ?_
  simp only [Thread.callId, if_true, Option.some.injEq] at hi
  exact hi ▸ h.own u hu

theorem Running.roomWait (h : p.Running t w) (hnb : w.nonblock = false) (hsent : w.sent = [])
    (hlog : ∀ c ∈ p.log, c.id ≠ w.id) (hroom : w.resid0 ≤ 4096 → w.needroom = w.resid0) :
    (p.setThread t (.roomWait w)).Inv :=
  h.others.setThread ⟨h.ok, hnb, hsent, hlog, hroom⟩ fun u hu i hi => by
    cases hi
    exact h.own u hu

theorem Running.fullWait (h : p.Running t w) (hnb : w.nonblock = false) (hlarge : 4096 < w.resid0) :
    (p.setThread t (.fullWait w)).Inv :=
  h.others.setThread ⟨h.ok, hnb, hlarge⟩ fun u hu i hi => by
    cases hi
    exact h.own u hu

omit [DecidableEq τ] in
/-- The shared invariant after `w` appends `chunk`: the chunk extends what `w` had accepted
within its bytes, and a small write appends all its bytes as its first chunk. -/
theorem Shared.append (hs : p.Shared) (hw : p.WriteOk w) {q' chunk : List β} (hq : q' = p.q ++ chunk)
    (hbound : q'.length ≤ maxBuf) (hcur : (w.sent ++ chunk).IsPrefix w.data)
    (hsmall : w.data.length ≤ 4096 → chunk = w.data ∧ ∀ c ∈ p.log, c.id ≠ w.id) :
    ({ p with q := q', log := p.log ++ [⟨w.id, w.data, chunk⟩] } : Pipe τ β).Shared := by
  have hlog : ∀ i, ({ p with q := q', log := p.log ++ [⟨w.id, w.data, chunk⟩] } : Pipe τ β).sentBy i =
      p.sentBy i ++ if w.id = i then chunk else [] := fun i => by
    rw [sentBy_of_log rfl]
    by_cases hi : w.id = i <;> simp [hi]
  refine ⟨?_, hbound, fun c hc => ?_, fun c hc => ?_, fun c hc hlen => ?_⟩
  · show p.delivered ++ q' = ((p.log ++ [(⟨w.id, w.data, chunk⟩ : Chunk β)]).map Chunk.bytes).flatten
    rw [hq, ← List.append_assoc, hs.fifo, accepted, List.map_append, List.flatten_append]
    simp
  · rw [List.mem_append, List.mem_singleton] at hc
    rcases hc with hc | rfl
    · exact hs.fresh c hc
    · exact hw.lt
  · rw [hlog]
    by_cases hi : w.id = c.id
    · rw [if_pos hi, ← hi, hw.sentBy]
      rw [List.mem_append, List.mem_singleton] at hc
      rcases hc with hc | rfl
      · rw [hw.chunks c hc hi.symm]
        exact hcur
      · exact hcur
    · rw [if_neg hi, List.append_nil]
      rw [List.mem_append, List.mem_singleton] at hc
      rcases hc with hc | rfl
      · exact hs.isPrefix c hc
      · exact absurd rfl hi
  · rw [List.mem_append, List.mem_singleton] at hc
    rcases hc with hc | rfl
    · by_cases hi : c.id = w.id
      · exact absurd hi ((hsmall (hw.chunks c hc hi ▸ hlen)).2 c hc)
      · refine ⟨(hs.small c hc hlen).1, ?_⟩
        rw [List.countP_append, (hs.small c hc hlen).2]
        simp [Ne.symm hi]
    · obtain ⟨hchunk, hnone⟩ := hsmall hlen
      refine ⟨hchunk, ?_⟩
      rw [List.countP_append, List.countP_eq_zero.mpr fun c hc => by simpa using hnone c hc]
      simp

omit [DecidableEq τ] in
/-- `w` after appending `chunk`, with the cursor past it. -/
theorem WriteOk.append (hw : p.WriteOk w) {q' chunk : List β} {rest' : List (List β)} {resid' : ℕ}
    (hrest : chunk ++ rest'.flatten = w.rest.flatten) (hresid : resid' = w.resid - chunk.length) :
    ({ p with q := q', log := p.log ++ [⟨w.id, w.data, chunk⟩] } : Pipe τ β).WriteOk
      { w with rest := rest', resid := resid', sent := w.sent ++ chunk } := by
  have hlen := congrArg List.length hrest
  rw [List.length_append] at hlen
  refine ⟨hw.lt, ?_, ?_, hw.resid0, ?_, fun c hc hi => ?_⟩
  · rw [List.append_assoc, hrest, hw.data]
  · show resid' = rest'.flatten.length
    rw [hresid, hw.resid]
    omega
  · rw [sentBy_of_log rfl, hw.sentBy]
    simp
  · rw [List.mem_append, List.mem_singleton] at hc
    rcases hc with hc | rfl
    · exact hw.chunks c hc hi
    · rfl

omit [DecidableEq τ] in
/-- **The copy of a turn.**  `copy_from_uio` appends a chunk of `w`'s bytes to the queue; all of
them when the write is small, which then has nothing left. -/
theorem Running.copy (h : p.Running t w)
    (hsmall : w.resid0 ≤ 4096 → w.sent = [] ∧ (∀ c ∈ p.log, c.id ≠ w.id) ∧ p.q.length + w.resid0 ≤ maxBuf) :
    ({ p with
        q := (copyFromUio maxBuf w.rest p.q w.resid).2.1
        log := p.log ++ [⟨w.id, w.data, (copyFromUio maxBuf w.rest p.q w.resid).2.1.drop p.q.length⟩] } :
        Pipe τ β).Running t
      { w with
        rest := (copyFromUio maxBuf w.rest p.q w.resid).1
        resid := (copyFromUio maxBuf w.rest p.q w.resid).2.2
        sent := w.sent ++ (copyFromUio maxBuf w.rest p.q w.resid).2.1.drop p.q.length } ∧
      (w.resid0 ≤ 4096 → (copyFromUio maxBuf w.rest p.q w.resid).2.2 = 0) := by
  obtain ⟨chunk, h1, h2, h3⟩ := copyFromUio_eq maxBuf w.rest p.q w.resid
  have hdrop : (copyFromUio maxBuf w.rest p.q w.resid).2.1.drop p.q.length = chunk := by
    rw [h1, List.drop_left]
  have hsmall' : w.resid0 ≤ 4096 → chunk = w.rest.flatten := fun hle => by
    obtain ⟨-, -, hfit⟩ := hsmall hle
    have hall := (@copyFromUio_all β maxBuf w.rest p.q w.resid
      (by have := h.ok.resid_add; rw [← h.ok.resid]; omega)).1
    rw [h1] at hall
    exact List.append_cancel_left hall
  rw [hdrop]
  have hshared := h.others.shared.append h.ok h1
    (copyFromUio_length maxBuf w.rest p.q w.resid h.others.shared.bound).1
    ⟨(copyFromUio maxBuf w.rest p.q w.resid).1.flatten, by rw [List.append_assoc, h2, h.ok.data]⟩
    fun hle => by
      obtain ⟨hsent, hnone, -⟩ := hsmall (h.ok.resid0 ▸ hle)
      refine ⟨?_, hnone⟩
      rw [hsmall' (h.ok.resid0 ▸ hle), ← h.ok.data, hsent, List.nil_append]
  refine ⟨⟨h.others.mono hshared (fun _ _ => rfl) (Nat.le_refl _) id rfl
    (fun u hu c hc => by rw [List.mem_singleton] at hc; rw [hc]; exact h.own u hu),
    h.ok.append h2 h3, h.own⟩, fun hle => ?_⟩
  rw [h3, hsmall' hle, h.ok.resid]
  exact Nat.sub_self _

theorem Running.writeLoop (h : p.Running t w)
    (hsmall : w.resid0 ≤ 4096 → w.sent = [] ∧ (∀ c ∈ p.log, c.id ≠ w.id) ∧ p.q.length + w.resid0 ≤ maxBuf)
    (hp : p.writeLoop t w = some p') : p'.Inv := by
  unfold Pipe.writeLoop at hp
  by_cases hgo : (w.resid ≠ 0 && p.receiver) = true
  · rw [if_pos hgo] at hp
    obtain ⟨hrun, hdone⟩ := h.copy hsmall
    dsimp only at hp
    by_cases h0 : (copyFromUio maxBuf w.rest p.q w.resid).2.2 = 0
    · rw [if_pos h0] at hp
      cases hp
      exact hrun.writeRet (fun _ => .inl h0) fun he => absurd he (by decide)
    · rw [if_neg h0] at hp
      by_cases hfull : (copyFromUio maxBuf w.rest p.q w.resid).2.1.length ≠ maxBuf
      · rw [if_pos hfull] at hp
        cases hp
      · rw [if_neg hfull] at hp
        by_cases hnb : w.nonblock = true
        · rw [if_pos hnb] at hp
          cases hp
          exact hrun.writeRet (fun hf => absurd (hnb.symm.trans hf) (by decide))
            fun he => absurd he (by decide)
        · rw [if_neg hnb] at hp
          cases hp
          exact hrun.fullWait (Bool.eq_false_iff.mpr hnb)
            (Nat.lt_of_not_le fun hle => h0 (hdone (h.ok.resid0 ▸ hle)))
  · rw [if_neg hgo] at hp
    cases hp
    refine h.writeRet (fun _ => ?_) fun he => absurd he (by decide)
    simp only [Bool.and_eq_true, decide_eq_true_eq, not_and_or, not_not] at hgo
    rcases hgo with hgo | hgo
    · exact .inl hgo
    · exact .inr (Bool.eq_false_iff.mpr hgo)

theorem Running.roomTest (h : p.Running t w) (hnb : w.nonblock = false) (hsent : w.sent = [])
    (hlog : ∀ c ∈ p.log, c.id ≠ w.id) (hroom : w.resid0 ≤ 4096 → w.needroom = w.resid0)
    (hp : p.roomTest t w = some p') : p'.Inv := by
  unfold Pipe.roomTest at hp
  by_cases hwait : (p.receiver && decide (maxBuf < p.q.length + w.needroom)) = true
  · rw [if_pos hwait] at hp
    cases hp
    exact h.roomWait hnb hsent hlog hroom
  · rw [if_neg hwait] at hp
    by_cases hgone : (!p.receiver) = true
    · rw [if_pos hgone] at hp
      cases hp
      exact h.writeRet (fun _ => .inr (by simpa using hgone)) fun he => absurd he (by decide)
    · rw [if_neg hgone] at hp
      have hrecv : p.receiver = true := by simpa using hgone
      simp only [hrecv, Bool.true_and, decide_eq_true_eq, Nat.not_lt] at hwait
      exact h.writeLoop (fun hle => ⟨hsent, hlog, hroom hle ▸ hwait⟩) hp

theorem Running.fullTest (h : p.Running t w) (hnb : w.nonblock = false) (hlarge : 4096 < w.resid0)
    (hp : p.fullTest t w = some p') : p'.Inv := by
  unfold Pipe.fullTest at hp
  by_cases hwait : (p.receiver && decide (p.q.length = maxBuf)) = true
  · rw [if_pos hwait] at hp
    cases hp
    exact h.fullWait hnb hlarge
  · rw [if_neg hwait] at hp
    exact h.writeLoop (fun hle => absurd hle (Nat.not_le.mpr hlarge)) hp

omit [DecidableEq τ] in
/-- The shared invariant once a call has taken its number. -/
theorem Shared.next (hs : p.Shared) : ({ p with next := p.next + 1 } : Pipe τ β).Shared :=
  ⟨hs.fifo, hs.bound, fun c hc => Nat.lt_succ_of_lt (hs.fresh c hc), hs.isPrefix, hs.small⟩

omit [DecidableEq τ] in
theorem Inv.others_next (h : p.Inv) (t : τ) : ({ p with next := p.next + 1 } : Pipe τ β).Others t :=
  (h.others t).mono h.shared.next (fun _ _ => rfl) (Nat.le_succ _) id (List.append_nil _).symm
    fun _ _ _ hc => absurd hc List.not_mem_nil

omit [DecidableEq τ] in
theorem Inv.fresh_ne (h : p.Inv) : ∀ c ∈ p.log, c.id ≠ p.next :=
  fun c hc => Nat.ne_of_lt (h.shared.fresh c hc)

omit [DecidableEq τ] in
/-- The write `t` starts: numbered `p.next`, with nothing accepted yet. -/
theorem Inv.newWrite (h : p.Inv) (t : τ) (nonblock : Bool) (iov : List (List β)) :
    ({ p with next := p.next + 1 } : Pipe τ β).Running t
      ⟨p.next, iov.flatten, (iov.map List.length).sum, nonblock,
        if (iov.map List.length).sum ≤ 4096 then (iov.map List.length).sum else 1, iov,
        (iov.map List.length).sum, []⟩ :=
  ⟨h.others_next t,
    ⟨Nat.lt_succ_self _, List.nil_append _, List.length_flatten.symm, List.length_flatten.symm,
      sentBy_eq_nil h.fresh_ne, fun c hc hi => absurd hi (h.fresh_ne c hc)⟩,
    fun u _ hu => Nat.lt_irrefl _ ((h.ok u).callId_lt hu)⟩

theorem Inv.write (h : p.Inv) {nonblock : Bool} {iov : List (List β)}
    (hp : p.write t nonblock iov = some p') : p'.Inv := by
  have hfresh := h.fresh_ne
  have hrun := h.newWrite t nonblock iov
  unfold Pipe.write at hp
  dsimp only at hp
  by_cases h0 : (iov.map List.length).sum = 0
  · rw [if_pos h0] at hp
    cases hp
    exact hrun.writeRet (fun _ => .inl h0) fun he => absurd he (by decide)
  rw [if_neg h0] at hp
  cases nonblock with
  | false =>
      rw [if_neg Bool.false_ne_true] at hp
      exact hrun.roomTest rfl rfl hfresh (fun hle => if_pos hle) hp
  | true =>
      rw [if_pos rfl] at hp
      by_cases hgone : (!p.receiver) = true
      · rw [if_pos hgone] at hp
        cases hp
        exact hrun.writeRet (fun hf => absurd hf (by simp)) fun he => absurd he (by decide)
      · rw [if_neg hgone] at hp
        by_cases hfull : maxBuf < p.q.length +
            if (iov.map List.length).sum ≤ 4096 then (iov.map List.length).sum else 1
        · rw [if_pos hfull] at hp
          cases hp
          exact hrun.writeRet (fun hf => absurd hf (by simp)) fun _ => rfl
        · rw [if_neg hfull] at hp
          refine hrun.writeLoop (fun hle => ⟨rfl, hfresh, ?_⟩) hp
          rw [if_pos hle] at hfull
          exact Nat.le_of_not_lt hfull

end Write

/-! ## The sections of `read` -/

section Read

variable {p : Pipe τ β} {t : τ} {n : ℕ} {nonblock : Bool} {lens : List ℕ} {resid : ℕ}

/-- `read` after its wait loop: a blocking read that finds the queue empty has seen the sender
gone, and one that copies gets bytes. -/
theorem Others.readFinish (h : p.Others t) (hid : n < p.next) (hresid : resid = lens.sum)
    (hsender : p.q.isEmpty = true → p.sender = false) :
    (p.readFinish t n nonblock lens resid).Inv := by
  unfold Pipe.readFinish
  by_cases hq : p.q.isEmpty = true
  · rw [if_pos hq]
    exact h.setThread ⟨hid, Nat.add_zero _, fun hw => absurd hw (by simp),
      fun hw => absurd hw (by simp), fun hw => absurd hw (by simp), fun _ _ _ _ => ⟨hsender hq, rfl⟩⟩
      fun _ _ _ hi => absurd hi (by simp [Thread.callId])
  · rw [if_neg hq]
    have happ := copyToUio_append p.q lens resid
    have hshared : ({ p with
        q := (copyToUio p.q lens resid).1
        delivered := p.delivered ++ (copyToUio p.q lens resid).2.2 } : Pipe τ β).Shared :=
      ⟨by rw [List.append_assoc, happ]; exact h.shared.fifo,
        by
          have hlen := congrArg List.length happ
          rw [List.length_append] at hlen
          have := h.shared.bound
          show (copyToUio p.q lens resid).1.length ≤ maxBuf
          omega,
        h.shared.fresh, h.shared.isPrefix, h.shared.small⟩
    refine (h.mono hshared (fun _ _ => rfl) (Nat.le_refl _) id (List.append_nil _).symm
      fun _ _ _ hc => absurd hc List.not_mem_nil).setThread
      ⟨hid, copyToUio_resid p.q lens resid (hresid ▸ Nat.le_refl _), fun hw => absurd hw (by simp),
        fun hw => absurd hw (by simp), fun hw => absurd hw (by simp), fun _ _ hpos hnil => ?_⟩
      fun _ _ _ hi => absurd hi (by simp [Thread.callId])
    exact absurd hnil (copyToUio_ne_nil resid (by simpa using hq) (hresid ▸ hpos))

theorem Others.readTest (h : p.Others t) (hid : n < p.next) (hresid : resid = lens.sum)
    (hpos : 0 < resid) : (p.readTest t n nonblock lens resid).Inv := by
  unfold Pipe.readTest
  by_cases hwait : (p.sender && p.q.isEmpty) = true
  · rw [if_pos hwait]
    exact h.setThread ⟨hid, hresid, hpos⟩ fun _ _ _ hi => absurd hi (by simp [Thread.callId])
  · rw [if_neg hwait]
    exact h.readFinish hid hresid fun hq => by simpa [hq] using hwait

theorem Inv.read (h : p.Inv) : (p.read t nonblock lens).Inv := by
  unfold Pipe.read
  dsimp only
  by_cases h0 : lens.sum = 0
  · rw [if_pos h0]
    exact (h.others_next t).setThread ⟨Nat.lt_succ_self _, rfl, fun hw => absurd hw (by simp),
      fun hw => absurd hw (by simp), fun hw => absurd hw (by simp),
      fun _ _ hpos => absurd hpos (Nat.lt_irrefl 0)⟩
      fun _ _ _ hi => absurd hi (by simp [Thread.callId])
  · rw [if_neg h0]
    by_cases hnb : (nonblock && p.q.isEmpty) = true
    · rw [if_pos hnb]
      have hnb' : nonblock = true := by simpa using (Bool.and_eq_true _ _).mp hnb |>.1
      exact (h.others_next t).setThread ⟨Nat.lt_succ_self _, Nat.add_zero _,
        fun hw => absurd hw (by simp), fun hw => absurd hw (by simp), fun hw => absurd hw (by simp),
        fun _ hf => absurd (hnb'.symm.trans hf) (by decide)⟩
        fun _ _ _ hi => absurd hi (by simp [Thread.callId])
    · rw [if_neg hnb]
      exact (h.others_next t).readTest (Nat.lt_succ_self _) rfl (Nat.pos_of_ne_zero h0)

end Read

/-! ## Every step -/

variable {p p' : Pipe τ β}

omit [DecidableEq τ] in
theorem Inv.detachSender (h : p.Inv) : p.detachSender.Inv := by
  unfold Pipe.detachSender
  split
  · exact ⟨⟨h.shared.fifo, h.shared.bound, h.shared.fresh, h.shared.isPrefix, h.shared.small⟩,
      fun u => (h.ok u).mono (Nat.le_refl _) id (List.append_nil _).symm
        fun _ hc => absurd hc List.not_mem_nil, h.distinct⟩
  · exact h

omit [DecidableEq τ] in
theorem Inv.detachReceiver (h : p.Inv) : p.detachReceiver.Inv := by
  unfold Pipe.detachReceiver
  split
  · exact ⟨⟨h.shared.fifo, h.shared.bound, h.shared.fresh, h.shared.isPrefix, h.shared.small⟩,
      fun u => (h.ok u).mono (Nat.le_refl _) (fun hf => absurd hf (by simp))
        (List.append_nil _).symm fun _ hc => absurd hc List.not_mem_nil, h.distinct⟩
  · exact h

/-- A waiting thread resumes. -/
theorem Inv.resume (h : p.Inv) {t : τ} (hp : p.step (.resume t) = some p') : p'.Inv := by
  simp only [Pipe.step] at hp
  have hok := h.ok t
  cases hth : p.thread t with
  | idle => rw [hth] at hp; cases hp
  | returned r => rw [hth] at hp; cases hp
  | readWait id lens resid =>
      rw [hth] at hp hok
      cases hp
      exact (h.others t).readTest hok.1 hok.2.1 hok.2.2
  | roomWait w =>
      rw [hth] at hp hok
      exact (h.running (by rw [hth]; rfl) hok.1).roomTest hok.2.1 hok.2.2.1 hok.2.2.2.1
        hok.2.2.2.2 hp
  | fullWait w =>
      rw [hth] at hp hok
      exact (h.running (by rw [hth]; rfl) hok.1).fullTest hok.2.1 hok.2.2 hp

theorem Inv.step (h : p.Inv) {op : Op τ β} (hp : p.step op = some p') : p'.Inv := by
  cases op with
  | read t nonblock lens =>
      simp only [Pipe.step] at hp
      split at hp
      · cases hp
        exact h.read
      · cases hp
  | write t nonblock iov =>
      simp only [Pipe.step] at hp
      split at hp
      · exact h.write hp
      · cases hp
  | resume t => exact h.resume hp
  | detachSender =>
      cases hp
      exact h.detachSender
  | detachReceiver =>
      cases hp
      exact h.detachReceiver

omit [DecidableEq τ] in
theorem inv_init : (init : Pipe τ β).Inv where
  shared := ⟨rfl, Nat.zero_le _, fun _ hc => absurd hc List.not_mem_nil,
    fun _ hc => absurd hc List.not_mem_nil, fun _ hc => absurd hc List.not_mem_nil⟩
  ok _ := trivial
  distinct _ _ _ _ hi := absurd hi (by simp [init, Thread.callId])

theorem inv_reachable {p : Pipe τ β} (hp : Reachable (pipeSystem τ β) p) : p.Inv := by
  refine Inductive.reachable ⟨fun p hp => ?_, fun p _ p' h hstep => h.step hstep⟩ hp
  rw [hp]
  exact inv_init

/-! ## The `assert` of `write` -/

section Assert

variable {p : Pipe τ β} {t : τ} {w : WriteCall β}

/-- `copy_from_uio` leaves bytes only on a full queue, so `assert(q.size() == max_buf)` holds and
a turn of the loop always takes its step. -/
theorem Running.writeLoop_ne_none (h : p.Running t w) : p.writeLoop t w ≠ none := by
  unfold Pipe.writeLoop
  by_cases hgo : (w.resid ≠ 0 && p.receiver) = true
  · rw [if_pos hgo]
    dsimp only
    obtain ⟨chunk, -, h2, h3⟩ := copyFromUio_eq maxBuf w.rest p.q w.resid
    by_cases h0 : (copyFromUio maxBuf w.rest p.q w.resid).2.2 = 0
    · rw [if_pos h0]
      exact Option.some_ne_none _
    · have hrest : (copyFromUio maxBuf w.rest p.q w.resid).1.flatten ≠ [] := fun hnil => by
        rw [hnil, List.append_nil] at h2
        rw [h3, h.ok.resid, ← h2, Nat.sub_self] at h0
        exact h0 rfl
      have hfull := (copyFromUio_length maxBuf w.rest p.q w.resid h.others.shared.bound).2 hrest
      rw [if_neg h0, if_neg (not_not.mpr hfull)]
      split <;> exact Option.some_ne_none _
  · rw [if_neg hgo]
    exact Option.some_ne_none _

theorem Running.roomTest_ne_none (h : p.Running t w) : p.roomTest t w ≠ none := by
  unfold Pipe.roomTest
  split
  · exact Option.some_ne_none _
  · split
    · exact Option.some_ne_none _
    · exact h.writeLoop_ne_none

theorem Running.fullTest_ne_none (h : p.Running t w) : p.fullTest t w ≠ none := by
  unfold Pipe.fullTest
  split
  · exact Option.some_ne_none _
  · exact h.writeLoop_ne_none

theorem Inv.write_ne_none (h : p.Inv) (nonblock : Bool) (iov : List (List β)) :
    p.write t nonblock iov ≠ none := by
  have hrun := h.newWrite t nonblock iov
  unfold Pipe.write
  dsimp only
  by_cases h0 : (iov.map List.length).sum = 0
  · rw [if_pos h0]
    exact Option.some_ne_none _
  rw [if_neg h0]
  cases nonblock with
  | false =>
      rw [if_neg Bool.false_ne_true]
      exact hrun.roomTest_ne_none
  | true =>
      rw [if_pos rfl]
      by_cases hgone : (!p.receiver) = true
      · rw [if_pos hgone]
        exact Option.some_ne_none _
      · rw [if_neg hgone]
        by_cases hfull : maxBuf < p.q.length +
            if (iov.map List.length).sum ≤ 4096 then (iov.map List.length).sum else 1
        · rw [if_pos hfull]
          exact Option.some_ne_none _
        · rw [if_neg hfull]
          exact hrun.writeLoop_ne_none

theorem Inv.resume_ne_none (h : p.Inv) (hfree : (p.thread t).free = false) :
    p.step (.resume t) ≠ none := by
  simp only [Pipe.step]
  have hok := h.ok t
  cases hth : p.thread t with
  | idle => rw [hth] at hfree; cases hfree
  | returned r => rw [hth] at hfree; cases hfree
  | readWait => exact Option.some_ne_none _
  | roomWait w =>
      rw [hth] at hok
      exact (h.running (by rw [hth]; rfl) hok.1).roomTest_ne_none
  | fullWait w =>
      rw [hth] at hok
      exact (h.running (by rw [hth]; rfl) hok.1).fullTest_ne_none

end Assert

end Pipe

open Pipe

/-- **`pipe_buffer` is a lossless bounded FIFO with atomic small writes.**  In every reachable
state: the bytes reads returned, followed by `q`, are the bytes writes had accepted, in the
order they were appended, and each write's accepted bytes are a prefix of its own; `q` holds at
most `max_buf` bytes; a write of at most 4096 bytes was accepted as one chunk, all of it; every
returned call's `uio_resid` dropped by the bytes it moved (for a write, those of its chunks), a
blocking write returned with nothing left or with the receiver detached, and `EAGAIN` from a
write means nothing was accepted; and a blocking read that asked for bytes and returned none
found the sender detached and the queue empty. -/
theorem pipe_buffer_lossless_fifo [DecidableEq τ] {p : Pipe τ β} (hp : Reachable (pipeSystem τ β) p) :
    (p.delivered ++ p.q = p.accepted ∧ ∀ c ∈ p.log, (p.sentBy c.id).IsPrefix c.data) ∧
      p.q.length ≤ maxBuf ∧
      (∀ c ∈ p.log, c.data.length ≤ 4096 →
        c.bytes = c.data ∧ p.log.countP (fun c' => c'.id = c.id) = 1) ∧
      (∀ t r, p.thread t = .returned r →
        r.resid + r.bytes.length = r.resid0 ∧ (r.write = true → p.sentBy r.id = r.bytes) ∧
          (r.write = true → r.nonblock = false → r.resid = 0 ∨ p.receiver = false) ∧
          (r.write = true → r.ret = EAGAIN → r.bytes = [])) ∧
      (∀ t r, p.thread t = .returned r → r.write = false → r.nonblock = false → 0 < r.resid0 →
        r.bytes = [] → r.sender = false ∧ r.empty = true) := by
  have h := inv_reachable hp
  have hres : ∀ t r, p.thread t = .returned r → p.ResultOk r := fun t r ht => by
    have := h.ok t
    rw [ht] at this
    exact this
  refine ⟨⟨h.shared.fifo, h.shared.isPrefix⟩, h.shared.bound, h.shared.small, fun t r ht => ?_,
    fun t r ht => (hres t r ht).eof⟩
  have hr := hres t r ht
  exact ⟨hr.resid, hr.sentBy, hr.blocking, hr.again⟩

/-- Thread `false` calls a blocking `read` of two bytes on the empty buffer and waits. -/
def waitingReadRun : List (Op Bool Bool) := [.read false false [2]]

/-- Then thread `true` writes three bytes, and the reader resumes and takes two of them. -/
def readWriteRun : List (Op Bool Bool) :=
  waitingReadRun ++ [.write true false [[true, false, true]], .resume false]

/-- The state after `waitingReadRun`. -/
def Pipe.waitingRead : Pipe Bool Bool :=
  (runFrom Pipe.step Pipe.init waitingReadRun).getD Pipe.init

/-- The state after `readWriteRun`. -/
def Pipe.readWrite : Pipe Bool Bool :=
  (runFrom Pipe.step Pipe.init readWriteRun).getD Pipe.init

theorem Pipe.waitingRead_reachable : Reachable (pipeSystem Bool Bool) Pipe.waitingRead :=
  reachable_of_runFrom (Reachable.init rfl)
    (show runFrom Pipe.step Pipe.init waitingReadRun = some Pipe.waitingRead from rfl)

theorem Pipe.readWrite_reachable : Reachable (pipeSystem Bool Bool) Pipe.readWrite :=
  reachable_of_runFrom (Reachable.init rfl)
    (show runFrom Pipe.step Pipe.init readWriteRun = some Pipe.readWrite from rfl)

/-- After `readWriteRun` the reader has two of the three bytes and the queue the third. -/
theorem pipe_buffer_lossless_fifo_readWrite :
    Reachable (pipeSystem Bool Bool) Pipe.readWrite ∧ Pipe.readWrite.delivered = [true, false] ∧
      Pipe.readWrite.q = [true] ∧
      (Pipe.readWrite.delivered ++ Pipe.readWrite.q = Pipe.readWrite.accepted ∧
        ∀ c ∈ Pipe.readWrite.log, (Pipe.readWrite.sentBy c.id).IsPrefix c.data) ∧
      Pipe.readWrite.q.length ≤ maxBuf ∧
      (∀ c ∈ Pipe.readWrite.log, c.data.length ≤ 4096 →
        c.bytes = c.data ∧ Pipe.readWrite.log.countP (fun c' => c'.id = c.id) = 1) ∧
      (∀ t r, Pipe.readWrite.thread t = .returned r →
        r.resid + r.bytes.length = r.resid0 ∧ (r.write = true → Pipe.readWrite.sentBy r.id = r.bytes) ∧
          (r.write = true → r.nonblock = false → r.resid = 0 ∨ Pipe.readWrite.receiver = false) ∧
          (r.write = true → r.ret = EAGAIN → r.bytes = [])) ∧
      (∀ t r, Pipe.readWrite.thread t = .returned r → r.write = false → r.nonblock = false →
        0 < r.resid0 → r.bytes = [] → r.sender = false ∧ r.empty = true) :=
  ⟨Pipe.readWrite_reachable, rfl, rfl, pipe_buffer_lossless_fifo Pipe.readWrite_reachable⟩

/-- A blocking `read` of one empty iovec returns at its first test, `!data->uio_resid`, with no
bytes, while the sender is attached. -/
theorem pipe_read_empty_iovec :
    ∃ p : Pipe Unit Unit, Reachable (pipeSystem Unit Unit) p ∧ ∃ r, p.thread () = .returned r ∧
      r.write = false ∧ r.nonblock = false ∧ r.bytes = [] ∧ r.sender = true :=
  ⟨Pipe.init.read () false [0],
    @Reachable.step _ _ (pipeSystem Unit Unit) Pipe.init _ (.read () false [0]) (Reachable.init rfl) rfl,
    ⟨0, false, false, 0, 0, 0, [], true, true⟩, rfl, rfl, rfl, rfl, rfl⟩

/-- **The `assert(q.size() == max_buf)` of `write` never fails.**  In every reachable state, a
`write` by a thread outside a call, and the resumption of a waiting thread, take a step. -/
theorem pipe_write_assert_holds [DecidableEq τ] {p : Pipe τ β}
    (hp : Reachable (pipeSystem τ β) p) :
    (∀ t nonblock iov, (p.thread t).free = true → p.step (.write t nonblock iov) ≠ none) ∧
      ∀ t, (p.thread t).free = false → p.step (.resume t) ≠ none := by
  have h := inv_reachable hp
  refine ⟨fun t nonblock iov hfree => ?_, fun t hfree => h.resume_ne_none hfree⟩
  simp only [Pipe.step, hfree, if_true]
  exact h.write_ne_none nonblock iov

/-- The reader of `waitingReadRun` waits on the empty queue: its resumption takes a step, and so
does a `write` by the other thread. -/
theorem pipe_write_assert_holds_waitingRead :
    Reachable (pipeSystem Bool Bool) Pipe.waitingRead ∧ (Pipe.waitingRead.thread false).free = false ∧
      (∀ t nonblock iov, (Pipe.waitingRead.thread t).free = true →
        Pipe.waitingRead.step (.write t nonblock iov) ≠ none) ∧
      ∀ t, (Pipe.waitingRead.thread t).free = false → Pipe.waitingRead.step (.resume t) ≠ none :=
  ⟨Pipe.waitingRead_reachable, rfl, pipe_write_assert_holds Pipe.waitingRead_reachable⟩

end Osv.Libc
