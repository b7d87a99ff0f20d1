import Mathlib.Data.List.Basic

/-!
# Order of events in a log

A model that records what its threads do in a log, newest event last, states temporal facts
as facts about the log: "`f` runs only after every cpu has passed a quiescent state since `f`
was deferred" is "every occurrence of `deferred f` in the log is followed by `quiescent c`".
`Follows log a b` says so for every occurrence of `a`.

A step appends one event.  `Follows` survives that unless the new event is `a` itself
(`Follows.append`), appending `b` makes it hold (`follows_append_self`), and a log extended by
an event other than `b` followed `a` by `b` only if the log did (`Follows.of_append`).
-/

namespace EventLog

variable {α : Type*} {log pre post : List α} {a b e : α}

/-- Every occurrence of `a` in `log` is followed, later in `log`, by `b`. -/
def Follows (log : List α) (a b : α) : Prop :=
  ∀ pre post, log = pre ++ a :: post → b ∈ post

/-- **An occurrence in a log extended by one event** is the new event, or an occurrence in
the log whose tail grew by the new event. -/
theorem eq_append_cons_of_append_singleton (h : log ++ [e] = pre ++ a :: post) :
    (post = [] ∧ a = e ∧ pre = log) ∨ ∃ post', post = post' ++ [e] ∧ log = pre ++ a :: post' := by
  rcases List.eq_nil_or_concat post with rfl | ⟨post', b, rfl⟩
  · obtain ⟨hpre, he⟩ := List.append_inj' h rfl
    exact .inl ⟨rfl, by simpa using he.symm, hpre.symm⟩
  · rw [List.concat_eq_append, ← List.cons_append, ← List.append_assoc] at h
    obtain ⟨hlog, he⟩ := List.append_inj' h rfl
    obtain rfl := List.singleton_inj.1 he
    exact .inr ⟨post', List.concat_eq_append .., hlog⟩

theorem follows_nil : Follows [] a b := by
  intro pre post h
  simp at h

theorem Follows.append (h : Follows log a b) (hne : a ≠ e) : Follows (log ++ [e]) a b := by
  intro pre post hlog
  rcases eq_append_cons_of_append_singleton hlog with ⟨-, rfl, -⟩ | ⟨post', rfl, hpre⟩
  · exact absurd rfl hne
  · exact List.mem_append_left _ (h pre post' hpre)

/-- Appending `b` follows every earlier occurrence of `a` by `b`. -/
theorem follows_append_self (hne : a ≠ b) : Follows (log ++ [b]) a b := by
  intro pre post hlog
  rcases eq_append_cons_of_append_singleton hlog with ⟨-, rfl, -⟩ | ⟨post', rfl, -⟩
  · exact absurd rfl hne
  · exact List.mem_append_right _ (List.mem_singleton_self _)

theorem Follows.of_append (h : Follows (log ++ [e]) a b) (hne : b ≠ e) : Follows log a b := by
  intro pre post hlog
  have hb : b ∈ post ++ [e] := h pre (post ++ [e]) (by rw [hlog]; simp)
  simpa [hne] using hb

/-- The last event is followed by nothing. -/
theorem not_follows_append_self : ¬ Follows (log ++ [a]) a b := fun h => by
  simpa using h log [] rfl

end EventLog
