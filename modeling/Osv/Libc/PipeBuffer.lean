import Mathlib.Data.List.Basic
import Mathlib.Data.Int.Notation
import Osv.Lib.Transition

/-!
# `pipe_buffer`

`libc/pipe_buffer.cc`: the queue of bytes `q` behind a pipe and a socketpair, at most
`max_buf` of them, under a `mutex mtx`, with the condvars `may_read` and `may_write`.  `read`
and `write` move bytes between `q` and an iovec array; `detach_sender` and `detach_receiver`
clear the two ends.

The model has one step per critical section under `mtx`.  A call that waits on a condvar
releases `mtx`; it takes one more step when it resumes, which re-tests its loop.  A waiting
call may resume at any time, so every schedule of `wake_all` (and of spurious wake-ups) is a
run here; `poll_wake` and the wake-ups themselves change no state of the buffer.

Beside the code's state the model keeps ghosts: a number for each call, every chunk a write
appended to `q` with the call it came from (`log`), every byte a read returned (`delivered`),
and, for a returned call, what it moved and what it saw when it returned.
-/

namespace Osv.Libc

open Transition

variable {τ β : Type*}

/-- `max_buf`. -/
def maxBuf : ℕ := 8192

/-- `EAGAIN` -/
def EAGAIN : ℤ := 11

/-- `EPIPE` -/
def EPIPE : ℤ := 32

/-! ## The two copy loops -/

/-- `copy_to_uio(q, uio)`, for iovecs of lengths `lens` and `uio_resid = resid`: the queue
left, `uio_resid`, and the bytes copied out, in iovec order. -/
def copyToUio : List β → List ℕ → ℕ → List β × ℕ × List β
  | q, [], resid => (q, resid, [])
  | q, len :: lens, resid =>
      if q.isEmpty then (q, resid, [])
      else
        let n := min q.length len
        let r := copyToUio (q.drop n) lens (resid - n)
        (r.1, r.2.1, q.take n ++ r.2.2)

/-- `copy_from_uio(uio, &ind, &offset, buf, bufsize)`.  The cursor `(*ind, *offset)` is held
as the iovecs left to copy, the first of them from `*offset` on.  Returns them, the buffer and
`uio_resid`.  When `*offset` stops inside an iovec, `n` was the room left: the buffer is full
and the loop's test fails. -/
def copyFromUio (bufsize : ℕ) : List (List β) → List β → ℕ → List (List β) × List β × ℕ
  | [], buf, resid => ([], buf, resid)
  | iov :: rest, buf, resid =>
      if buf.length < bufsize then
        let n := min (bufsize - buf.length) iov.length
        if n = iov.length then copyFromUio bufsize rest (buf ++ iov) (resid - n)
        else (iov.drop n :: rest, buf ++ iov.take n, resid - n)
      else (iov :: rest, buf, resid)

theorem copyToUio_cons (q : List β) (len : ℕ) (lens : List ℕ) (resid : ℕ) :
    copyToUio q (len :: lens) resid =
      if q.isEmpty then (q, resid, [])
      else
        let n := min q.length len
        let r := copyToUio (q.drop n) lens (resid - n)
        (r.1, r.2.1, q.take n ++ r.2.2) := rfl

/-- **Nothing lost.**  The bytes `copy_to_uio` copies out, followed by the queue it leaves, are
the queue. -/
theorem copyToUio_append : ∀ (q : List β) (lens : List ℕ) (resid : ℕ),
    (copyToUio q lens resid).2.2 ++ (copyToUio q lens resid).1 = q
  | q, [], _ => rfl
  | q, len :: lens, resid => by
      by_cases hq : q.isEmpty
      · simp only [copyToUio_cons, hq, if_true, List.nil_append]
      · simp only [copyToUio_cons, hq, Bool.false_eq_true, if_false]
        rw [List.append_assoc, copyToUio_append, List.take_append_drop]

/-- `uio_resid` drops by the number of bytes copied out. -/
theorem copyToUio_resid : ∀ (q : List β) (lens : List ℕ) (resid : ℕ), lens.sum ≤ resid →
    (copyToUio q lens resid).2.1 + (copyToUio q lens resid).2.2.length = resid
  | q, [], _, _ => rfl
  | q, len :: lens, resid, h => by
      rw [List.sum_cons] at h
      by_cases hq : q.isEmpty
      · simp only [copyToUio_cons, hq, if_true, List.length_nil, Nat.add_zero]
      · simp only [copyToUio_cons, hq, Bool.false_eq_true, if_false, List.length_append, List.length_take]
        have ih := copyToUio_resid (q.drop (min q.length len)) lens (resid - min q.length len) (by omega)
        omega

/-- From a queue with bytes, into iovecs with room, some bytes come out. -/
theorem copyToUio_ne_nil : ∀ {q : List β} {lens : List ℕ} (resid : ℕ), q ≠ [] → 0 < lens.sum →
    (copyToUio q lens resid).2.2 ≠ []
  | _, [], _, _, h => absurd h (Nat.lt_irrefl 0)
  | q, len :: lens, resid, hq, h => by
      have hq' : q.isEmpty = false := List.isEmpty_eq_false_iff.mpr hq
      simp only [copyToUio_cons, hq', Bool.false_eq_true, if_false, ne_eq, List.append_eq_nil_iff,
        List.take_eq_nil_iff, not_and]
      rintro (hlen | hq0)
      · rcases Nat.min_eq_zero_iff.mp hlen with h0 | h0
        · exact absurd (List.length_eq_zero_iff.mp h0) hq
        · rw [List.sum_cons, h0, Nat.zero_add] at h
          simpa [h0] using copyToUio_ne_nil (resid - 0) hq h
      · exact absurd hq0 hq

variable (bufsize : ℕ)

theorem copyFromUio_nil (buf : List β) (resid : ℕ) : copyFromUio bufsize [] buf resid = ([], buf, resid) :=
  rfl

theorem copyFromUio_cons (iov : List β) (rest : List (List β)) (buf : List β) (resid : ℕ) :
    copyFromUio bufsize (iov :: rest) buf resid =
      if buf.length < bufsize then
        let n := min (bufsize - buf.length) iov.length
        if n = iov.length then copyFromUio bufsize rest (buf ++ iov) (resid - n)
        else (iov.drop n :: rest, buf ++ iov.take n, resid - n)
      else (iov :: rest, buf, resid) := rfl

/-- `copy_from_uio` appends a chunk to the buffer, the bytes of the iovecs it passes, and takes
it off `uio_resid`. -/
theorem copyFromUio_eq : ∀ (iovs : List (List β)) (buf : List β) (resid : ℕ),
    ∃ chunk, (copyFromUio bufsize iovs buf resid).2.1 = buf ++ chunk ∧
      chunk ++ (copyFromUio bufsize iovs buf resid).1.flatten = iovs.flatten ∧
      (copyFromUio bufsize iovs buf resid).2.2 = resid - chunk.length
  | [], buf, resid => ⟨[], by simp [copyFromUio_nil]⟩
  | iov :: rest, buf, resid => by
      by_cases hroom : buf.length < bufsize
      · by_cases hn : min (bufsize - buf.length) iov.length = iov.length
        · obtain ⟨chunk, h1, h2, h3⟩ := copyFromUio_eq rest (buf ++ iov) (resid - iov.length)
          refine ⟨iov ++ chunk, ?_, ?_, ?_⟩ <;>
            simp only [copyFromUio_cons, hroom, hn, if_true, h1, h2, h3, List.append_assoc,
              List.flatten_cons, List.length_append, Nat.sub_sub]
        · refine ⟨iov.take (min (bufsize - buf.length) iov.length), ?_, ?_, ?_⟩ <;>
            simp only [copyFromUio_cons, hroom, hn, if_true, if_false, List.flatten_cons,
              ← List.append_assoc, List.take_append_drop, List.length_take, Nat.min_assoc, Nat.min_self]
      · exact ⟨[], by simp [copyFromUio_cons, hroom]⟩

/-- The buffer never grows past `bufsize`, and `copy_from_uio` stops with bytes left only when
it is full. -/
theorem copyFromUio_length : ∀ (iovs : List (List β)) (buf : List β) (resid : ℕ),
    buf.length ≤ bufsize →
      (copyFromUio bufsize iovs buf resid).2.1.length ≤ bufsize ∧
        ((copyFromUio bufsize iovs buf resid).1.flatten ≠ [] →
          (copyFromUio bufsize iovs buf resid).2.1.length = bufsize)
  | [], buf, resid, h => ⟨h, fun hne => absurd rfl hne⟩
  | iov :: rest, buf, resid, h => by
      by_cases hroom : buf.length < bufsize
      · by_cases hn : min (bufsize - buf.length) iov.length = iov.length
        · simp only [copyFromUio_cons, hroom, hn, if_true]
          exact copyFromUio_length rest (buf ++ iov) (resid - iov.length)
            (by rw [List.length_append]; omega)
        · simp only [copyFromUio_cons, hroom, hn, if_true, if_false, List.length_append, List.length_take]
          omega
      · simp only [copyFromUio_cons, hroom, if_false]
        exact ⟨h, fun _ => by omega⟩

/-- When the iovecs fit in the room left, `copy_from_uio` copies them all. -/
theorem copyFromUio_all {iovs : List (List β)} {buf : List β} (resid : ℕ)
    (hfit : buf.length + iovs.flatten.length ≤ bufsize) :
    (copyFromUio bufsize iovs buf resid).2.1 = buf ++ iovs.flatten ∧
      (copyFromUio bufsize iovs buf resid).1.flatten = [] := by
  obtain ⟨chunk, h1, h2, -⟩ := copyFromUio_eq bufsize iovs buf resid
  have hlen := congrArg List.length h2
  rw [List.length_append] at hlen
  by_cases hne : (copyFromUio bufsize iovs buf resid).1.flatten = []
  · rw [hne, List.append_nil] at h2
    exact ⟨h2 ▸ h1, hne⟩
  · have hfull := (copyFromUio_length bufsize iovs buf resid (by omega)).2 hne
    rw [h1, List.length_append] at hfull
    exact absurd (List.length_eq_zero_iff.mp (by omega)) hne

/-! ## The buffer and its callers -/

/-- A `write` in progress: what is left of its iovecs, `uio_resid`, `needroom`; and as ghosts
its number, its bytes, `uio_resid` at the call, and the bytes it has had accepted. -/
structure WriteCall (β : Type*) where
  id : ℕ
  data : List β
  resid0 : ℕ
  nonblock : Bool
  needroom : ℕ
  rest : List (List β)
  resid : ℕ
  sent : List β

/-- A returned call: whether it was a `write`, `uio_resid` at the call and at the return, the
value returned and the bytes it moved; whether the sender was attached and the queue empty
when it returned. -/
structure Result (β : Type*) where
  id : ℕ
  write : Bool
  nonblock : Bool
  resid0 : ℕ
  resid : ℕ
  ret : ℤ
  bytes : List β
  sender : Bool
  empty : Bool

/-- Where a thread is in the calls of the buffer. -/
inductive Thread (β : Type*) where
  | idle
  /-- A blocking `read` in `may_read.wait`, with its iovec lengths and `uio_resid`. -/
  | readWait (id : ℕ) (lens : List ℕ) (resid : ℕ)
  /-- A blocking `write` in `may_write.wait` of the `needroom` loop. -/
  | roomWait (w : WriteCall β)
  /-- A blocking `write` in `may_write.wait` of the loop on a full queue. -/
  | fullWait (w : WriteCall β)
  | returned (r : Result β)

/-- A chunk a write appended to `q`: the number of the call, its bytes, and what it appended. -/
structure Chunk (β : Type*) where
  id : ℕ
  data : List β
  bytes : List β

/-- A `pipe_buffer` and the threads that call it.  `sender` and `receiver` say whether the
two `file` pointers are set. -/
structure Pipe (τ β : Type*) where
  q : List β
  sender : Bool
  receiver : Bool
  thread : τ → Thread β
  /-- The number the next call gets. -/
  next : ℕ
  log : List (Chunk β)
  delivered : List β

/-- The calls of the buffer, and a waiting thread resuming. -/
inductive Op (τ β : Type*) where
  | read (t : τ) (nonblock : Bool) (lens : List ℕ)
  | write (t : τ) (nonblock : Bool) (iov : List (List β))
  | resume (t : τ)
  | detachSender
  | detachReceiver

namespace Thread

/-- Not inside a call, so free to make one. -/
def free : Thread β → Bool
  | .idle | .returned _ => true
  | _ => false

/-- The number of the write a thread is in, or last returned from. -/
def callId : Thread β → Option ℕ
  | .roomWait w | .fullWait w => some w.id
  | .returned r => if r.write then some r.id else none
  | _ => none

end Thread

namespace Pipe

/-- A buffer just created, with both ends attached. -/
def init : Pipe τ β := ⟨[], true, true, fun _ => .idle, 0, [], []⟩

/-- Every byte writes had accepted, in the order they were appended. -/
def accepted (p : Pipe τ β) : List β := (p.log.map Chunk.bytes).flatten

/-- The bytes call `i` had accepted, in order. -/
def sentBy (p : Pipe τ β) (i : ℕ) : List β :=
  ((p.log.filter fun c => c.id = i).map Chunk.bytes).flatten

variable [DecidableEq τ]

/-- Thread `t` moves to `th`. -/
def setThread (p : Pipe τ β) (t : τ) (th : Thread β) : Pipe τ β :=
  { p with thread := Function.update p.thread t th }

/-- `read` once its wait loop is left: nothing if the queue is empty (the sender is gone),
else `copy_to_uio`. -/
def readFinish (p : Pipe τ β) (t : τ) (id : ℕ) (nonblock : Bool) (lens : List ℕ) (resid : ℕ) :
    Pipe τ β :=
  if p.q.isEmpty then p.setThread t (.returned ⟨id, false, nonblock, resid, resid, 0, [], p.sender, true⟩)
  else
    let r := copyToUio p.q lens resid
    ({ p with q := r.1, delivered := p.delivered ++ r.2.2 } : Pipe τ β).setThread t
      (.returned ⟨id, false, nonblock, resid, r.2.1, 0, r.2.2, p.sender, r.1.isEmpty⟩)

/-- The test of `while (sender && q.empty()) may_read.wait(&mtx)`. -/
def readTest (p : Pipe τ β) (t : τ) (id : ℕ) (nonblock : Bool) (lens : List ℕ) (resid : ℕ) :
    Pipe τ β :=
  if p.sender && p.q.isEmpty then p.setThread t (.readWait id lens resid)
  else p.readFinish t id nonblock lens resid

/-- `read(uio, nonblock)` with iovecs of lengths `lens`, up to its wait or its return. -/
def read (p : Pipe τ β) (t : τ) (nonblock : Bool) (lens : List ℕ) : Pipe τ β :=
  let resid := lens.sum
  let id := p.next
  let p := { p with next := p.next + 1 }
  if resid = 0 then p.setThread t (.returned ⟨id, false, nonblock, 0, 0, 0, [], p.sender, p.q.isEmpty⟩)
  else if nonblock && p.q.isEmpty then
    p.setThread t
      (.returned ⟨id, false, nonblock, resid, resid, if p.sender then EAGAIN else 0, [], p.sender, true⟩)
  else p.readTest t id nonblock lens resid

/-- `write` returning `ret`. -/
def writeRet (p : Pipe τ β) (t : τ) (w : WriteCall β) (ret : ℤ) : Pipe τ β :=
  p.setThread t (.returned ⟨w.id, true, w.nonblock, w.resid0, w.resid, ret, w.sent, p.sender, p.q.isEmpty⟩)

/-- A turn of `while (data->uio_resid && receiver)`: `copy_from_uio`, and then, with bytes left,
the `assert` (`none` when it fails) and a non-blocking return or the wait on a full queue,
whose test holds there: the receiver is attached and the queue is full. -/
def writeLoop (p : Pipe τ β) (t : τ) (w : WriteCall β) : Option (Pipe τ β) :=
  if w.resid ≠ 0 && p.receiver then
    let r := copyFromUio maxBuf w.rest p.q w.resid
    let chunk := r.2.1.drop p.q.length
    let w' := { w with rest := r.1, resid := r.2.2, sent := w.sent ++ chunk }
    let p' := { p with q := r.2.1, log := p.log ++ [(⟨w.id, w.data, chunk⟩ : Chunk β)] }
    if r.2.2 = 0 then some (p'.writeRet t w' 0)
    else if r.2.1.length ≠ maxBuf then none
    else if w.nonblock then some (p'.writeRet t w' 0)
    else some (p'.setThread t (.fullWait w'))
  else some (p.writeRet t w 0)

/-- The test of `while (receiver && q.size() + needroom > max_buf) may_write.wait(&mtx)`, and
what follows it. -/
def roomTest (p : Pipe τ β) (t : τ) (w : WriteCall β) : Option (Pipe τ β) :=
  if p.receiver && decide (maxBuf < p.q.length + w.needroom) then some (p.setThread t (.roomWait w))
  else if !p.receiver then some (p.writeRet t w EPIPE)
  else p.writeLoop t w

/-- The test of `while (receiver && q.size() == max_buf) may_write.wait(&mtx)`, and the loop
after it. -/
def fullTest (p : Pipe τ β) (t : τ) (w : WriteCall β) : Option (Pipe τ β) :=
  if p.receiver && decide (p.q.length = maxBuf) then some (p.setThread t (.fullWait w))
  else p.writeLoop t w

/-- `write(uio, nonblock)` of the iovecs `iov`, up to its first wait or its return. -/
def write (p : Pipe τ β) (t : τ) (nonblock : Bool) (iov : List (List β)) : Option (Pipe τ β) :=
  let resid := (iov.map List.length).sum
  let w : WriteCall β :=
    ⟨p.next, iov.flatten, resid, nonblock, if resid ≤ 4096 then resid else 1, iov, resid, []⟩
  let p := { p with next := p.next + 1 }
  if resid = 0 then some (p.writeRet t w 0)
  else if nonblock then
    if !p.receiver then some (p.writeRet t w EPIPE)
    else if maxBuf < p.q.length + w.needroom then some (p.writeRet t w EAGAIN)
    else p.writeLoop t w
  else p.roomTest t w

/-- `detach_sender()`. -/
def detachSender (p : Pipe τ β) : Pipe τ β := if p.sender then { p with sender := false } else p

/-- `detach_receiver()`. -/
def detachReceiver (p : Pipe τ β) : Pipe τ β :=
  if p.receiver then { p with receiver := false } else p

/-- One step; `none` where it is not enabled or the `assert` of `write` fails. -/
def step (p : Pipe τ β) : Op τ β → Option (Pipe τ β)
  | .read t nonblock lens => if (p.thread t).free then some (p.read t nonblock lens) else none
  | .write t nonblock iov => if (p.thread t).free then p.write t nonblock iov else none
  | .resume t =>
      match p.thread t with
      | .readWait id lens resid => some (p.readTest t id false lens resid)
      | .roomWait w => p.roomTest t w
      | .fullWait w => p.fullTest t w
      | _ => none
  | .detachSender => some p.detachSender
  | .detachReceiver => some p.detachReceiver

end Pipe

/-- The buffer and its callers, as a transition system. -/
def pipeSystem (τ β : Type*) [DecidableEq τ] : System (Pipe τ β) (Op τ β) :=
  System.ofFun (· = Pipe.init) Pipe.step

end Osv.Libc
