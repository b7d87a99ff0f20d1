import Mathlib.Data.List.Nodup
import Osv.Lib.LinkedList
import Osv.Lib.Queue

/-!
# `queue_mpsc`

`include/lockfree/queue-mpsc.hh` is a queue of intrusive items for many producers and one
consumer.  Producers push onto `pushlist`, a list of the newest item first, whose head they
replace with a `compare_exchange_weak`; the consumer pops from `poplist`, a list only it
touches, and when that is empty takes the whole of `pushlist` with one `exchange`, reverses it
into `poplist` and returns its last item, the oldest.

The model is the system of all interleavings of the steps of any number of producers `τ` and
of the one consumer, over items `ι` whose `next` fields form the heap.  A step is one access
to `pushlist` (the load, the compare-exchange, the exchange), one write of an item's `next`
field, or one pass of the consumer through code that touches only its own items.  Memory is
sequentially consistent: the memory orders the code names are not modelled.

**A FIFO queue.**  Under the abstraction `detached.reverse ++ poplist ++ pushlist.reverse`,
where `detached` is the part of the exchanged list the reversal loop has not reached yet, each
step of the system is a step of `Fifo.spec` or none: a push takes effect at its successful
compare-exchange and a pop when it returns (`refines`).  The invariant behind it, `Layout`,
says that the three lists are chains in the heap, disjoint from each other and from the items
being pushed, and that a producer at its compare-exchange has linked its item to the head it
read.  Along every execution the items popped, followed by those still queued, are then the
items pushed in the order of their compare-exchanges (`queueMpsc_refines_fifo`).
-/

namespace Osv.Lockfree

open Transition LinkedList

variable {ι τ : Type*}

/-- Where a producer is in `push(item)`. -/
inductive Pusher (ι : Type*) where
  /-- Not in `push`. -/
  | idle
  /-- `push(item)` was called; next is `old = pushlist.load()`. -/
  | load (item : ι)
  /-- Next is `item->next = old`, the body of the retry loop. -/
  | link (item : ι) (old : Option ι)
  /-- Next is `pushlist.compare_exchange_weak(old, item)`. -/
  | cas (item : ι) (old : Option ι)

/-- The item a producer is pushing. -/
def Pusher.pushing : Pusher ι → Option ι
  | .idle => none
  | .load item | .link item _ | .cas item _ => some item

/-- Where the consumer is in `pop()`. -/
inductive Popper (ι : Type*) where
  /-- Not in `pop`. -/
  | idle
  /-- `poplist` was found empty; next is `r = pushlist.exchange(nullptr)`. -/
  | exchange
  /-- In the reversal loop, at `while (r->next)`. -/
  | reverse (r : ι)

/-- The `r` of the reversal loop. -/
def Popper.cursor : Popper ι → Option ι
  | .reverse r => some r
  | _ => none

/-- A `queue_mpsc<LT>`, the `next` fields of its items, and where its callers are. -/
structure QueueMpsc (ι τ : Type*) where
  /-- The `next` field of every item. -/
  next : ι → Option ι
  /-- `pushlist`, newest item first. -/
  pushlist : Option ι
  /-- `poplist`, oldest item first. -/
  poplist : Option ι
  pusher : τ → Pusher ι
  popper : Popper ι

/-- What a step shows: a push at its successful compare-exchange, a pop when it returns. -/
inductive Label (τ ι : Type*) where
  | internal
  | push (producer : τ) (item : ι)
  | pop (result : Option ι)

/-- The event of the queue a step is. -/
def Label.event : Label τ ι → Option (Fifo.Event ι)
  | .internal => none
  | .push _ item => some (.push item)
  | .pop result => some (.pop result)

/-- The item a step pushes. -/
def Label.pushed : Label τ ι → Option ι
  | .push _ item => some item
  | _ => none

/-- The item a step pops. -/
def Label.popped : Label τ ι → Option ι
  | .pop result => result
  | _ => none

/-- A step of one thread: a call of `push(item)`, a producer's next step, a spurious failure
of its `compare_exchange_weak`, or the consumer's next step. -/
inductive Action (τ ι : Type*) where
  | call (producer : τ) (item : ι)
  | push (producer : τ)
  | casFail (producer : τ)
  | pop

namespace QueueMpsc

/-- The constructor: both lists empty, no call in progress; the items' `next` fields hold
whatever they hold. -/
def init (next : ι → Option ι) : QueueMpsc ι τ := ⟨next, none, none, fun _ => .idle, .idle⟩

/-- Producer `t` moves to `p`. -/
def setPusher [DecidableEq τ] (s : QueueMpsc ι τ) (t : τ) (p : Pusher ι) : QueueMpsc ι τ :=
  { s with pusher := Function.update s.pusher t p }

/-- The next step of producer `t` in `push`. -/
def pushStep [DecidableEq ι] [DecidableEq τ] (s : QueueMpsc ι τ) (t : τ) : Option (Label τ ι × QueueMpsc ι τ) :=
  match s.pusher t with
  | .idle => none
  | .load item => some (.internal, s.setPusher t (.link item s.pushlist))
  | .link item old =>
      some (.internal, ({ s with next := Function.update s.next item old }).setPusher t (.cas item old))
  | .cas item old =>
      -- a failed compare-exchange stores the head it found in `old`, and the loop goes round
      if s.pushlist = old then
        some (.push t item, { s.setPusher t .idle with pushlist := some item })
      else some (.internal, s.setPusher t (.link item s.pushlist))

/-- The next step of the consumer in `pop`, which it may start at any time. -/
def popStep [DecidableEq ι] (s : QueueMpsc ι τ) : Label τ ι × QueueMpsc ι τ :=
  match s.popper with
  | .idle =>
      match s.poplist with
      | some result => (.pop (some result), { s with poplist := s.next result })
      | none => (.internal, { s with popper := .exchange })
  | .exchange =>
      match s.pushlist with
      | none => (.pop none, { s with popper := .idle })
      | some r => (.internal, { s with pushlist := none, popper := .reverse r })
  | .reverse r =>
      match s.next r with
      | some next =>
          (.internal, { s with next := Function.update s.next r s.poplist, poplist := some r,
                               popper := .reverse next })
      | none => (.pop (some r), { s with popper := .idle })

/-- One step, or `none` when the thread is not where the step starts. -/
def exec [DecidableEq ι] [DecidableEq τ] (s : QueueMpsc ι τ) : Action τ ι → Option (Label τ ι × QueueMpsc ι τ)
  | .call t item =>
      match s.pusher t with
      | .idle => some (.internal, s.setPusher t (.load item))
      | _ => none
  | .push t => s.pushStep t
  | .casFail t =>
      match s.pusher t with
      | .cas item _ => some (.internal, s.setPusher t (.link item s.pushlist))
      | _ => none
  | .pop => some s.popStep

/-- Item `x` is on one of the lists, or being pushed. -/
def InUse (s : QueueMpsc ι τ) (x : ι) : Prop :=
  Reaches s.next s.poplist x ∨ Reaches s.next s.pushlist x ∨ Reaches s.next s.popper.cursor x ∨
    ∃ t, (s.pusher t).pushing = some x

/-- The callers' side of the contract: `push(item)` is called with an item on none of the
lists and in no other push. -/
def Allowed (s : QueueMpsc ι τ) : Action τ ι → Prop
  | .call _ item => ¬ s.InUse item
  | _ => True

/-- `empty()`. -/
def empty (s : QueueMpsc ι τ) : Bool := s.poplist.isNone && s.pushlist.isNone

end QueueMpsc

/-- The queue and its callers, as a transition system. -/
def queueMpsc (ι τ : Type*) [DecidableEq ι] [DecidableEq τ] :
    System (QueueMpsc ι τ) (Label τ ι) where
  init s := ∃ next, s = QueueMpsc.init next
  step s l t := ∃ a, s.Allowed a ∧ s.exec a = some (l, t)

namespace QueueMpsc

variable {s : QueueMpsc ι τ} {pop push detached : List ι} {t : τ} {x : ι}

section setPusher

variable [DecidableEq τ]

@[simp] theorem setPusher_next (p : Pusher ι) : (s.setPusher t p).next = s.next := rfl
@[simp] theorem setPusher_pushlist (p : Pusher ι) : (s.setPusher t p).pushlist = s.pushlist := rfl
@[simp] theorem setPusher_poplist (p : Pusher ι) : (s.setPusher t p).poplist = s.poplist := rfl
@[simp] theorem setPusher_popper (p : Pusher ι) : (s.setPusher t p).popper = s.popper := rfl

theorem setPusher_pusher (p : Pusher ι) (t' : τ) :
    (s.setPusher t p).pusher t' = if t' = t then p else s.pusher t' :=
  Function.update_apply _ _ _ _

end setPusher

/-! ## The layout of the items -/

/-- How the items of a state lie: `pop`, `push` and `detached` are the chains from `poplist`,
from `pushlist` and from the reversal loop's `r`; they are disjoint, and no item being pushed
is on them or pushed twice; a producer at its compare-exchange has linked its item to `old`. -/
structure Layout (s : QueueMpsc ι τ) (pop push detached : List ι) : Prop where
  pop_chain : Chain s.next s.poplist pop
  push_chain : Chain s.next s.pushlist push
  detached_chain : Chain s.next s.popper.cursor detached
  nodup : (detached ++ pop ++ push).Nodup
  exchange : s.popper = .exchange → s.poplist = none
  pushing : ∀ t x, (s.pusher t).pushing = some x → x ∉ detached ++ pop ++ push
  pushing_unique : ∀ t t' x, (s.pusher t).pushing = some x → (s.pusher t').pushing = some x →
    t = t'
  linked : ∀ t x old, s.pusher t = .cas x old → s.next x = old

/-- The queue a layout stands for, oldest item first. -/
def view (pop push detached : List ι) : List ι := detached.reverse ++ pop ++ push.reverse

/-- The abstraction: the state lays its items out as lists that stand for `q`. -/
def Repr (s : QueueMpsc ι τ) (q : List ι) : Prop :=
  ∃ pop push detached, Layout s pop push detached ∧ q = view pop push detached

theorem layout_init (next : ι → Option ι) : Layout (init next : QueueMpsc ι τ) [] [] [] where
  pop_chain := .nil
  push_chain := .nil
  detached_chain := .nil
  nodup := List.nodup_nil
  exchange h := nomatch h
  pushing _ _ h := nomatch h
  pushing_unique _ _ _ h := nomatch h
  linked _ _ _ h := nomatch h

/-- An item being pushed is on no list and pushed by no other producer. -/
theorem Layout.fresh (h : Layout s pop push detached) (hx : (s.pusher t).pushing = some x) :
    x ∉ detached ++ pop ++ push ∧ ∀ t', t' ≠ t → (s.pusher t').pushing ≠ some x :=
  ⟨h.pushing t x hx, fun t' ht' hx' => ht' (h.pushing_unique t' t x hx' hx)⟩

/-! ### Producer steps -/

/-- Moving one producer keeps the layout, if the item it then pushes is fresh and, at the
compare-exchange, linked. -/
theorem Layout.setPusher [DecidableEq τ] (h : Layout s pop push detached) {p : Pusher ι}
    (hfresh : ∀ x, p.pushing = some x →
      x ∉ detached ++ pop ++ push ∧ ∀ t', t' ≠ t → (s.pusher t').pushing ≠ some x)
    (hlinked : ∀ x old, p = .cas x old → s.next x = old) :
    Layout (s.setPusher t p) pop push detached where
  pop_chain := h.pop_chain
  push_chain := h.push_chain
  detached_chain := h.detached_chain
  nodup := h.nodup
  exchange := h.exchange
  pushing t' y hy := by
    rw [setPusher_pusher] at hy
    split_ifs at hy
    · exact (hfresh y hy).1
    · exact h.pushing t' y hy
  pushing_unique t₁ t₂ y h₁ h₂ := by
    rw [setPusher_pusher] at h₁ h₂
    split_ifs at h₁ h₂ with ht₁ ht₂ ht₂
    · rw [ht₁, ht₂]
    · exact absurd h₂ ((hfresh y h₁).2 t₂ ht₂)
    · exact absurd h₁ ((hfresh y h₂).2 t₁ ht₁)
    · exact h.pushing_unique t₁ t₂ y h₁ h₂
  linked t' y old hy := by
    rw [setPusher_pusher] at hy
    split_ifs at hy
    · exact hlinked y old hy
    · exact h.linked t' y old hy

/-- `push(item)` is called with an item not in use. -/
theorem Layout.call [DecidableEq τ] (h : Layout s pop push detached) (hx : ¬ s.InUse x) : Layout (s.setPusher t (.load x)) pop push detached := by
  refine h.setPusher (fun y hy => ?_) (fun _ _ hp => nomatch hp)
  cases hy
  refine ⟨fun hmem => ?_, fun t' _ ht' => hx (.inr (.inr (.inr ⟨t', ht'⟩)))⟩
  rcases List.mem_append.mp hmem with hmem | hmem
  · rcases List.mem_append.mp hmem with hmem | hmem
    · exact hx (.inr (.inr (.inl (h.detached_chain.reaches_iff.mpr hmem))))
    · exact hx (.inl (h.pop_chain.reaches_iff.mpr hmem))
  · exact hx (.inr (.inl (h.push_chain.reaches_iff.mpr hmem)))

/-- A producer moves on with the item it already pushes, not to the compare-exchange. -/
theorem Layout.keep [DecidableEq τ] (h : Layout s pop push detached) {item : ι}
    (hp : (s.pusher t).pushing = some item) (p : Pusher ι) (hpitem : p.pushing = some item)
    (hnot : ∀ x old, p ≠ .cas x old) : Layout (s.setPusher t p) pop push detached :=
  h.setPusher (fun y hy => by rw [hpitem] at hy; cases hy; exact h.fresh hp)
    (fun x old hcas => absurd hcas (hnot x old))

/-- A producer writes the `next` field of its item. -/
theorem Layout.writeNext [DecidableEq ι] (h : Layout s pop push detached) (hx : (s.pusher t).pushing = some x)
    (hcas : ∀ old, s.pusher t ≠ .cas x old) (v : Option ι) :
    Layout { s with next := Function.update s.next x v } pop push detached where
  pop_chain := h.pop_chain.update (fun hm => h.pushing t x hx (by simp [hm])) v
  push_chain := h.push_chain.update (fun hm => h.pushing t x hx (by simp [hm])) v
  detached_chain := h.detached_chain.update (fun hm => h.pushing t x hx (by simp [hm])) v
  nodup := h.nodup
  exchange := h.exchange
  pushing := h.pushing
  pushing_unique := h.pushing_unique
  linked t' y old hy := by
    have hyx : y ≠ x := by
      rintro rfl
      have ht : t' = t := h.pushing_unique t' t y (by rw [hy]; rfl) hx
      exact hcas old (ht ▸ hy)
    show Function.update s.next x v y = old
    rw [Function.update_of_ne hyx]
    exact h.linked t' y old hy

/-- A successful compare-exchange makes the item, linked to the old head, the new head. -/
theorem Layout.pushHead (h : Layout s pop push detached) (hx : x ∉ detached ++ pop ++ push)
    (hfree : ∀ t, (s.pusher t).pushing ≠ some x) (hnext : s.next x = s.pushlist) :
    Layout { s with pushlist := some x } pop (x :: push) detached where
  pop_chain := h.pop_chain
  push_chain := .cons (by rw [hnext]; exact h.push_chain)
  detached_chain := h.detached_chain
  nodup := List.nodup_middle.mpr (List.nodup_cons.mpr ⟨hx, h.nodup⟩)
  exchange := h.exchange
  pushing t' y hy := by
    have hyx : y ≠ x := by
      rintro rfl
      exact hfree t' hy
    simpa [hyx] using h.pushing t' y hy
  pushing_unique := h.pushing_unique
  linked := h.linked

/-! ### Consumer steps -/

/-- The pushers' side of a layout carries over when the consumer rearranges the same items
and writes only `next` fields of items on its lists. -/
theorem Layout.consumer {s' : QueueMpsc ι τ} {pop' push' detached' : List ι}
    (h : Layout s pop push detached) (hpusher : s'.pusher = s.pusher)
    (hmem : ∀ y, y ∈ detached' ++ pop' ++ push' → y ∈ detached ++ pop ++ push)
    (hnext : ∀ y, y ∉ detached ++ pop ++ push → s'.next y = s.next y)
    (pop_chain : Chain s'.next s'.poplist pop') (push_chain : Chain s'.next s'.pushlist push')
    (detached_chain : Chain s'.next s'.popper.cursor detached')
    (nodup : (detached' ++ pop' ++ push').Nodup)
    (exchange : s'.popper = .exchange → s'.poplist = none) :
    Layout s' pop' push' detached' where
  pop_chain := pop_chain
  push_chain := push_chain
  detached_chain := detached_chain
  nodup := nodup
  exchange := exchange
  pushing t y hy := by
    rw [hpusher] at hy
    exact fun hy' => h.pushing t y hy (hmem y hy')
  pushing_unique := by
    rw [hpusher]
    exact h.pushing_unique
  linked t y old hy := by
    rw [hpusher] at hy
    rw [hnext y (h.pushing t y (by rw [hy]; rfl))]
    exact h.linked t y old hy

/-- The idle consumer pops the head of a non-empty `poplist`. -/
theorem Layout.popHead (h : Layout s pop push detached) (hidle : s.popper = .idle)
    {a : ι} (hpl : s.poplist = some a) :
    ∃ pop', pop = a :: pop' ∧ detached = [] ∧
      Layout { s with poplist := s.next a } pop' push [] := by
  have hdet : detached = [] := by
    have hc := h.detached_chain
    rw [hidle] at hc
    exact chain_none.mp hc
  have hc := h.pop_chain
  rw [hpl] at hc
  obtain ⟨pop', rfl, hpop'⟩ := chain_some.mp hc
  subst hdet
  refine ⟨pop', rfl, rfl, h.consumer rfl (fun y hy => ?_) (fun _ _ => rfl) hpop' h.push_chain
    (by simp [hidle, Popper.cursor]) ?_ (fun hex => by simp [hidle] at hex)⟩
  · simp only [List.nil_append, List.mem_append, List.mem_cons] at hy ⊢
    tauto
  · have hnd := h.nodup
    simp only [List.nil_append, List.cons_append] at hnd
    exact hnd.of_cons

/-- The idle consumer finds `poplist` empty and goes to the exchange. -/
theorem Layout.toExchange (h : Layout s pop push detached) (hidle : s.popper = .idle)
    (hpl : s.poplist = none) :
    pop = [] ∧ detached = [] ∧ Layout { s with popper := .exchange } [] push [] := by
  have hpop : pop = [] := by
    have hc := h.pop_chain
    rw [hpl] at hc
    exact chain_none.mp hc
  have hdet : detached = [] := by
    have hc := h.detached_chain
    rw [hidle] at hc
    exact chain_none.mp hc
  subst hpop hdet
  exact ⟨rfl, rfl, h.consumer rfl (fun _ hy => hy) (fun _ _ => rfl) (by simp [hpl])
    h.push_chain .nil h.nodup (fun _ => hpl)⟩

/-- The exchange finds `pushlist` empty: both lists were empty, and `pop` returns null. -/
theorem Layout.exchangeNone (h : Layout s pop push detached) (hex : s.popper = .exchange)
    (hpu : s.pushlist = none) :
    pop = [] ∧ push = [] ∧ detached = [] ∧ Layout { s with popper := .idle } [] [] [] := by
  have hpop : pop = [] := by
    have hc := h.pop_chain
    rw [h.exchange hex] at hc
    exact chain_none.mp hc
  have hpush : push = [] := by
    have hc := h.push_chain
    rw [hpu] at hc
    exact chain_none.mp hc
  have hdet : detached = [] := by
    have hc := h.detached_chain
    rw [hex] at hc
    exact chain_none.mp hc
  subst hpop hpush hdet
  exact ⟨rfl, rfl, rfl, h.consumer rfl (fun _ hy => hy) (fun _ _ => rfl)
    (by simp [h.exchange hex]) (by simp [hpu]) .nil List.nodup_nil (fun hidle => nomatch hidle)⟩

/-- The exchange takes the whole of `pushlist`, which the reversal loop then walks. -/
theorem Layout.exchangeSome (h : Layout s pop push detached) (hex : s.popper = .exchange)
    {r : ι} (hpu : s.pushlist = some r) :
    pop = [] ∧ detached = [] ∧
      Layout { s with pushlist := none, popper := .reverse r } [] [] push := by
  have hpop : pop = [] := by
    have hc := h.pop_chain
    rw [h.exchange hex] at hc
    exact chain_none.mp hc
  have hdet : detached = [] := by
    have hc := h.detached_chain
    rw [hex] at hc
    exact chain_none.mp hc
  subst hpop hdet
  refine ⟨rfl, rfl, h.consumer rfl (fun y hy => by simpa using hy) (fun _ _ => rfl)
    (by simp [h.exchange hex]) .nil ?_ (by simpa using h.nodup) (fun hrev => nomatch hrev)⟩
  have hc := h.push_chain
  rwa [hpu] at hc

/-- One pass of the reversal loop moves `r` from the detached list to the head of `poplist`. -/
theorem Layout.reverseStep [DecidableEq ι] (h : Layout s pop push detached) {r n : ι}
    (hrev : s.popper = .reverse r) (hn : s.next r = some n) :
    ∃ detached', detached = r :: detached' ∧
      Layout { s with next := Function.update s.next r s.poplist, poplist := some r,
                      popper := .reverse n } (r :: pop) push detached' := by
  have hc := h.detached_chain
  rw [hrev] at hc
  obtain ⟨detached', rfl, hdet'⟩ := chain_some.mp hc
  rw [hn] at hdet'
  have hnd := h.nodup
  simp only [List.cons_append, List.nodup_cons, List.mem_append, not_or] at hnd
  obtain ⟨⟨⟨hrd, hrp⟩, hru⟩, hnd'⟩ := hnd
  refine ⟨detached', rfl, h.consumer rfl (fun y hy => ?_) (fun y hy => ?_)
    (.cons ?_) (h.push_chain.update hru _) (hdet'.update hrd _) ?_ (fun hex => nomatch hex)⟩
  · simp only [List.mem_append, List.mem_cons] at hy ⊢
    tauto
  · have hyr : y ≠ r := by
      rintro rfl
      simp at hy
    exact Function.update_of_ne hyr _ _
  · show Chain _ (Function.update s.next r s.poplist r) pop
    rw [Function.update_self]
    exact h.pop_chain.update hrp _
  · rw [List.append_assoc, List.cons_append]
    refine List.nodup_middle.mpr (List.nodup_cons.mpr ⟨by simp [hrd, hrp, hru], ?_⟩)
    rwa [← List.append_assoc]

/-- The last pass of the reversal loop: `r` is the oldest item, and `pop` returns it. -/
theorem Layout.reverseLast (h : Layout s pop push detached) {r : ι}
    (hrev : s.popper = .reverse r) (hn : s.next r = none) :
    detached = [r] ∧ Layout { s with popper := .idle } pop push [] := by
  have hc := h.detached_chain
  rw [hrev] at hc
  obtain ⟨detached', rfl, hdet'⟩ := chain_some.mp hc
  rw [hn] at hdet'
  obtain rfl := chain_none.mp hdet'
  refine ⟨rfl, h.consumer rfl (fun y hy => ?_) (fun _ _ => rfl) h.pop_chain h.push_chain .nil
    ?_ (fun hex => nomatch hex)⟩
  · simp only [List.nil_append, List.mem_append] at hy
    simp only [List.cons_append, List.nil_append, List.mem_cons, List.mem_append]
    tauto
  · have hnd := h.nodup
    simp only [List.cons_append, List.nil_append] at hnd ⊢
    exact hnd.of_cons

/-! ### The consumer's branches -/

section popStep

variable [DecidableEq ι]

theorem popStep_idle_some (hpop : s.popper = .idle) {a : ι} (hpl : s.poplist = some a) :
    s.popStep = (.pop (some a), { s with poplist := s.next a }) := by
  simp [popStep, hpop, hpl]

theorem popStep_idle_none (hpop : s.popper = .idle) (hpl : s.poplist = none) :
    s.popStep = (.internal, { s with popper := .exchange }) := by
  simp [popStep, hpop, hpl]

theorem popStep_exchange_none (hpop : s.popper = .exchange) (hpu : s.pushlist = none) :
    s.popStep = (.pop none, { s with popper := .idle }) := by
  simp [popStep, hpop, hpu]

theorem popStep_exchange_some (hpop : s.popper = .exchange) {r : ι} (hpu : s.pushlist = some r) :
    s.popStep = (.internal, { s with pushlist := none, popper := .reverse r }) := by
  simp [popStep, hpop, hpu]

theorem popStep_reverse_some {r n : ι} (hpop : s.popper = .reverse r) (hn : s.next r = some n) :
    s.popStep = (.internal, { s with next := Function.update s.next r s.poplist, poplist := some r,
                                     popper := .reverse n }) := by
  simp [popStep, hpop, hn]

theorem popStep_reverse_none {r : ι} (hpop : s.popper = .reverse r) (hn : s.next r = none) :
    s.popStep = (.pop (some r), { s with popper := .idle }) := by
  simp [popStep, hpop, hn]

end popStep

/-! ## The queue refines a FIFO queue -/

/-- **One step.**  A step from a state that stands for `q` is a step of the FIFO queue, or,
when internal, keeps `q`. -/
theorem Repr.step [DecidableEq ι] [DecidableEq τ] {q : List ι} {a : Action τ ι} {l : Label τ ι} {s' : QueueMpsc ι τ}
    (h : Repr s q) (ha : s.Allowed a) (hexec : s.exec a = some (l, s')) :
    ∃ q', Fifo.spec.StepOrStay l.event q q' ∧ Repr s' q' := by
  obtain ⟨pop, push, detached, hL, rfl⟩ := h
  cases a with
  | call t x =>
      cases hp : s.pusher t with
      | idle =>
          simp only [exec, hp, Option.some.injEq, Prod.mk.injEq] at hexec
          obtain ⟨rfl, rfl⟩ := hexec
          exact ⟨_, rfl, pop, push, detached, hL.call ha, rfl⟩
      | load _ | link _ _ | cas _ _ => simp [exec, hp] at hexec
  | push t =>
      cases hp : s.pusher t with
      | idle => simp [exec, pushStep, hp] at hexec
      | load x =>
          simp only [exec, pushStep, hp, Option.some.injEq, Prod.mk.injEq] at hexec
          obtain ⟨rfl, rfl⟩ := hexec
          exact ⟨_, rfl, pop, push, detached,
            hL.keep (by rw [hp]; rfl) _ rfl (fun _ _ hc => nomatch hc), rfl⟩
      | link x old =>
          simp only [exec, pushStep, hp, Option.some.injEq, Prod.mk.injEq] at hexec
          obtain ⟨rfl, rfl⟩ := hexec
          have hw := hL.writeNext (by rw [hp]; rfl) (fun _ hc => by rw [hp] at hc; cases hc) old
          refine ⟨_, rfl, pop, push, detached, hw.setPusher (fun y hy => ?_) ?_, rfl⟩
          · cases hy
            exact hw.fresh (t := t) (by rw [show ({ s with next := _ } : QueueMpsc ι τ).pusher t
              = s.pusher t from rfl, hp]; rfl)
          · rintro y o ⟨⟩
            exact Function.update_self _ _ _
      | cas x old =>
          have hfresh := hL.fresh (t := t) (by rw [hp]; rfl)
          by_cases hpl : s.pushlist = old
          · simp only [exec, pushStep, hp, hpl, if_true, Option.some.injEq, Prod.mk.injEq] at hexec
            obtain ⟨rfl, rfl⟩ := hexec
            have hidle := hL.setPusher (t := t) (p := .idle) (fun _ hy => nomatch hy)
              (fun _ _ hc => nomatch hc)
            refine ⟨_, .push _ x, pop, x :: push, detached, hidle.pushHead hfresh.1 ?_ ?_, ?_⟩
            · intro t' hx
              rw [setPusher_pusher] at hx
              split_ifs at hx with ht'
              · exact nomatch hx
              · exact hfresh.2 t' ht' hx
            · rw [setPusher_next, setPusher_pushlist, hpl]
              exact hL.linked t x old hp
            · simp [view]
          · simp only [exec, pushStep, hp, hpl, if_false, Option.some.injEq,
              Prod.mk.injEq] at hexec
            obtain ⟨rfl, rfl⟩ := hexec
            exact ⟨_, rfl, pop, push, detached,
              hL.keep (by rw [hp]; rfl) _ rfl (fun _ _ hc => nomatch hc), rfl⟩
  | casFail t =>
      cases hp : s.pusher t with
      | cas x old =>
          simp only [exec, hp, Option.some.injEq, Prod.mk.injEq] at hexec
          obtain ⟨rfl, rfl⟩ := hexec
          exact ⟨_, rfl, pop, push, detached,
            hL.keep (by rw [hp]; rfl) _ rfl (fun _ _ hc => nomatch hc), rfl⟩
      | idle | load _ | link _ _ => simp [exec, hp] at hexec
  | pop =>
      simp only [exec, Option.some.injEq] at hexec
      cases hpop : s.popper with
      | idle =>
          cases hpl : s.poplist with
          | some a =>
              rw [popStep_idle_some hpop hpl, Prod.mk.injEq] at hexec
              obtain ⟨rfl, rfl⟩ := hexec
              obtain ⟨pop', rfl, rfl, hL'⟩ := hL.popHead hpop hpl
              exact ⟨_, .popSome a _, pop', push, [], hL', by simp [view]⟩
          | none =>
              rw [popStep_idle_none hpop hpl, Prod.mk.injEq] at hexec
              obtain ⟨rfl, rfl⟩ := hexec
              obtain ⟨rfl, rfl, hL'⟩ := hL.toExchange hpop hpl
              exact ⟨_, rfl, [], push, [], hL', rfl⟩
      | exchange =>
          cases hpu : s.pushlist with
          | none =>
              rw [popStep_exchange_none hpop hpu, Prod.mk.injEq] at hexec
              obtain ⟨rfl, rfl⟩ := hexec
              obtain ⟨rfl, rfl, rfl, hL'⟩ := hL.exchangeNone hpop hpu
              exact ⟨[], .popNone, [], [], [], hL', rfl⟩
          | some r =>
              rw [popStep_exchange_some hpop hpu, Prod.mk.injEq] at hexec
              obtain ⟨rfl, rfl⟩ := hexec
              obtain ⟨rfl, rfl, hL'⟩ := hL.exchangeSome hpop hpu
              exact ⟨_, rfl, [], [], push, hL', by simp [view]⟩
      | reverse r =>
          cases hn : s.next r with
          | some n =>
              rw [popStep_reverse_some hpop hn, Prod.mk.injEq] at hexec
              obtain ⟨rfl, rfl⟩ := hexec
              obtain ⟨detached', rfl, hL'⟩ := hL.reverseStep hpop hn
              exact ⟨_, rfl, r :: pop, push, detached', hL', by simp [view]⟩
          | none =>
              rw [popStep_reverse_none hpop hn, Prod.mk.injEq] at hexec
              obtain ⟨rfl, rfl⟩ := hexec
              obtain ⟨rfl, hL'⟩ := hL.reverseLast hpop hn
              exact ⟨_, .popSome r _, pop, push, [], hL', by simp [view]⟩

/-- **`queue_mpsc` refines the FIFO queue** through `Repr`. -/
theorem refines [DecidableEq ι] [DecidableEq τ] : Refines (queueMpsc ι τ) Fifo.spec Label.event Repr where
  init s hs := by
    obtain ⟨next, rfl⟩ := hs
    exact ⟨[], rfl, [], [], [], layout_init next, rfl⟩
  step s q l s' h hstep := by
    obtain ⟨a, ha, hexec⟩ := hstep
    exact h.step ha hexec

/-- A state stands for one queue only. -/
theorem Repr.unique {q q' : List ι} (h : Repr s q) (h' : Repr s q') : q = q' := by
  obtain ⟨pop, push, detached, hL, rfl⟩ := h
  obtain ⟨pop', push', detached', hL', rfl⟩ := h'
  rw [hL.pop_chain.unique hL'.pop_chain, hL.push_chain.unique hL'.push_chain,
    hL.detached_chain.unique hL'.detached_chain]

/-- Outside `pop`, `empty()` answers whether the queue is empty. -/
theorem Repr.empty_iff {q : List ι} (h : Repr s q) (hidle : s.popper = .idle) :
    s.empty = true ↔ q = [] := by
  obtain ⟨pop, push, detached, hL, rfl⟩ := h
  have hdet : detached = [] := by
    have hc := hL.detached_chain
    rw [hidle] at hc
    exact chain_none.mp hc
  subst hdet
  simp only [empty, Bool.and_eq_true, Option.isNone_iff_eq_none, view, List.reverse_nil,
    List.nil_append, List.append_eq_nil_iff, List.reverse_eq_nil_iff]
  rw [hL.pop_chain.eq_nil_iff, hL.push_chain.eq_nil_iff]

theorem filterMap_event_popped (ls : List (Label τ ι)) :
    (ls.filterMap Label.event).filterMap Fifo.Event.popped = ls.filterMap Label.popped := by
  rw [List.filterMap_filterMap]
  congr 1
  funext l
  cases l <;> rfl

theorem filterMap_event_pushed (ls : List (Label τ ι)) :
    (ls.filterMap Label.event).filterMap Fifo.Event.pushed = ls.filterMap Label.pushed := by
  rw [List.filterMap_filterMap]
  congr 1
  funext l
  cases l <;> rfl

/-- **`queue_mpsc` is a FIFO queue.**  Along every execution from the constructor, the pushes
(at their compare-exchanges) and the pops (at their returns) are an execution of the FIFO
queue from empty, to a queue `q` the final state stands for; the items popped, followed by
`q`, are the items pushed, in order; and outside `pop`, `empty()` answers whether `q` is
empty. -/
theorem queueMpsc_refines_fifo [DecidableEq ι] [DecidableEq τ] {s t : QueueMpsc ι τ} {ls : List (Label τ ι)}
    (hs : (queueMpsc ι τ).init s) (h : Exec (queueMpsc ι τ) s ls t) :
    ∃ q, Repr t q ∧ Exec Fifo.spec [] (ls.filterMap Label.event) q ∧
      ls.filterMap Label.popped ++ q = ls.filterMap Label.pushed ∧
      (t.popper = .idle → (t.empty = true ↔ q = [])) := by
  obtain ⟨q₀, q, hq₀, hexec, hq⟩ := refines.trace hs h
  obtain rfl : q₀ = [] := hq₀
  refine ⟨q, hq, hexec, ?_, hq.empty_iff⟩
  have hfifo := Fifo.exec_spec hexec
  rwa [filterMap_event_popped, filterMap_event_pushed, List.nil_append] at hfifo

theorem init_not_inUse (next : ι → Option ι) (x : ι) : ¬ (init next : QueueMpsc ι τ).InUse x := by
  rintro (h | h | h | ⟨t, h⟩)
  · exact not_reaches_none h
  · exact not_reaches_none h
  · exact not_reaches_none h
  · exact nomatch h

/-- One producer pushes `5`, then the consumer pops it, exchanging and reversing. -/
theorem queueMpsc_refines_fifo_push_pop :
    ∃ t, Exec (queueMpsc ℕ ℕ) (init fun _ => none)
        [.internal, .internal, .internal, .push 0 5, .internal, .internal, .pop (some 5)] t ∧
      ∃ q, Repr t q ∧ Exec Fifo.spec [] [.push 5, .pop (some 5)] q ∧ [5] ++ q = [5] ∧
        (t.popper = .idle → (t.empty = true ↔ q = [])) := by
  obtain ⟨t, h⟩ : ∃ t, Exec (queueMpsc ℕ ℕ) (init fun _ => none)
      [.internal, .internal, .internal, .push 0 5, .internal, .internal, .pop (some 5)] t :=
    ⟨_, .cons ⟨.call 0 5, init_not_inUse _ 5, rfl⟩ <| .cons ⟨.push 0, trivial, rfl⟩ <|
      .cons ⟨.push 0, trivial, rfl⟩ <| .cons ⟨.push 0, trivial, rfl⟩ <|
      .cons ⟨.pop, trivial, rfl⟩ <| .cons ⟨.pop, trivial, rfl⟩ <|
      .cons ⟨.pop, trivial, rfl⟩ <| .nil _⟩
  exact ⟨t, h, queueMpsc_refines_fifo ⟨_, rfl⟩ h⟩

end QueueMpsc

end Osv.Lockfree
