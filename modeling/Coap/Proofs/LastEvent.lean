/-
# The last event of a history

Inductions over a history add one event at its end.  What is said of a history is often said of
every way to split it before one of its events.  Such a way is one to split the shorter history, or
the event is the last one.
-/
import Mathlib.Data.List.Induction

namespace Coap

variable {α : Type} {l before after : List α} {a b : α}

/-- A history with one event more is split before that event, or before one it had. -/
theorem concat_eq_append_cons (h : l ++ [a] = before ++ b :: after) :
    (before = l ∧ b = a ∧ after = []) ∨ ∃ init, after = init ++ [a] ∧ l = before ++ b :: init := by
  rcases List.eq_nil_or_concat after with rfl | ⟨init, last, rfl⟩
  · obtain ⟨rfl, hab⟩ := List.append_inj' h rfl
    exact .inl ⟨rfl, (List.singleton_inj.mp hab).symm, rfl⟩
  · rw [List.concat_eq_append, ← List.cons_append, ← List.append_assoc] at h
    obtain ⟨rfl, hlast⟩ := List.append_inj' h rfl
    exact .inr ⟨init, by rw [List.singleton_inj.mp hlast, List.concat_eq_append], rfl⟩

/-- The last event comes after any other one. -/
theorem mem_after_of_concat (hne : b ≠ a) (h : l ++ [a] = before ++ b :: after) : a ∈ after := by
  rcases concat_eq_append_cons h with ⟨-, rfl, -⟩ | ⟨init, rfl, -⟩
  · exact absurd rfl hne
  · exact List.mem_concat_self

/-- Something holds before each event of a history with one event more if it did before, and holds
before the last one. -/
theorem forall_before_concat {P : List α → α → Prop} :
    (∀ before b after, l ++ [a] = before ++ b :: after → P before b) ↔
      (∀ before b after, l = before ++ b :: after → P before b) ∧ P l a := by
  constructor
  · intro h
    refine ⟨?_, h l a [] rfl⟩
    rintro before b after rfl
    exact h before b (after ++ [a]) (by simp)
  · rintro ⟨hbefore, hlast⟩ before b after h
    rcases concat_eq_append_cons h with ⟨rfl, rfl, -⟩ | ⟨init, -, rfl⟩
    · exact hlast
    · exact hbefore before b init rfl

end Coap
