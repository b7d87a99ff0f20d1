import Mathlib.Data.List.Basic

/-!
# Loops that can fail

A loop over a list whose body can fail is `List.foldlM` in `Option`: it stops with `none` at
the first step that fails.  Its two rules: an invariant that every successful step keeps
holds of the state a successful loop ends in (`foldlM_inv`), and a loop whose every step,
from a state of the invariant, succeeds into one, succeeds (`foldlM_some`).  The steps may
use that the element is one of the list's.
-/

namespace OptionLoop

variable {α σ : Type*} {f : σ → α → Option σ}

/-- **Partial correctness.**  What every step that succeeds keeps, a loop that succeeds
keeps. -/
theorem foldlM_inv (P : σ → Prop) :
    ∀ {l : List α}, (∀ a ∈ l, ∀ s s', P s → f s a = some s' → P s') →
      ∀ {s s' : σ}, P s → l.foldlM f s = some s' → P s'
  | [], _, s, s', hs, h => by
      rw [List.foldlM_nil] at h
      cases h
      exact hs
  | a :: l, hstep, s, s', hs, h => by
      rw [List.foldlM_cons] at h
      obtain ⟨t, ht, hrest⟩ := Option.bind_eq_some_iff.mp h
      exact foldlM_inv P (fun b hb => hstep b (List.mem_cons_of_mem a hb))
        (hstep a List.mem_cons_self s t hs ht) hrest

/-- **Termination.**  When every step from a state of the invariant succeeds into one, the
loop succeeds into one. -/
theorem foldlM_some (P : σ → Prop) :
    ∀ {l : List α}, (∀ a ∈ l, ∀ s, P s → ∃ s', f s a = some s' ∧ P s') →
      ∀ {s : σ}, P s → ∃ s', l.foldlM f s = some s' ∧ P s'
  | [], _, s, hs => ⟨s, rfl, hs⟩
  | a :: l, hstep, s, hs => by
      obtain ⟨t, ht, hPt⟩ := hstep a List.mem_cons_self s hs
      obtain ⟨s', hrest, hP⟩ :=
        foldlM_some P (fun b hb => hstep b (List.mem_cons_of_mem a hb)) hPt
      refine ⟨s', ?_, hP⟩
      rw [List.foldlM_cons, ht]
      exact hrest

end OptionLoop
