import Mathlib.Logic.Function.Basic

/-!
This module contains what holds of many threads after one of them has moved. What all of them
satisfy is `Function.forall_update_iff`.
-/

namespace Threads

variable {τ α : Type} [DecidableEq τ] (P : α → Prop) {threads : τ → α} {t t' : τ} {x : α}

theorem update_cases (h : P (Function.update threads t x t')) :
    t' = t ∧ P x ∨ t' ≠ t ∧ P (threads t') := by
  by_cases hne : t' = t
  . subst hne
    rw [Function.update_self] at h
    exact Or.inl ⟨rfl, h⟩
  . rw [Function.update_of_ne hne] at h
    exact Or.inr ⟨hne, h⟩

theorem update_iff (hx : P x ↔ P (threads t)) (t' : τ) :
    P (Function.update threads t x t') ↔ P (threads t') := by
  by_cases hne : t' = t
  . subst hne
    rw [Function.update_self]
    exact hx
  . rw [Function.update_of_ne hne]

theorem not_update (hx : ¬P x) (hunique : ∀ t', P (threads t') → t' = t) (t' : τ) :
    ¬P (Function.update threads t x t') := by
  intro h
  obtain ⟨-, h⟩ | ⟨hne, h⟩ := update_cases P h
  . exact hx h
  . exact hne (hunique t' h)

theorem eq_of_update (hno : ∀ t, ¬P (threads t)) (h : P (Function.update threads t x t')) :
    t' = t := by
  obtain ⟨heq, -⟩ | ⟨-, h⟩ := update_cases P h
  . exact heq
  . exact absurd h (hno t')

theorem exists_update (hx : P (threads t) → P x) (h : ∃ t, P (threads t)) :
    ∃ t', P (Function.update threads t x t') := by
  obtain ⟨t', h⟩ := h
  by_cases hne : t' = t
  . subst hne
    exact ⟨t', by rw [Function.update_self]; exact hx h⟩
  . exact ⟨t', by rw [Function.update_of_ne hne]; exact h⟩

end Threads
