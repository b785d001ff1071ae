import Lax.Foundation.Threads

/-!
This module contains a flag that guards an asynchronous operation: whoever sets the flag starts the
operation, and whoever gets its completion clears the flag. Threads that are at a place that `owns`
the flag are between the two.
-/

inductive Turn {τ α : Type} (owns : α → Prop) (threads : τ → α) (busy : Bool) (ops : Nat) : Prop where
  | free (hbusy : busy = false) (hops : ops = 0) (hno : ∀ t, ¬owns (threads t))
  | held (t : τ) (hbusy : busy = true) (hops : ops = 0) (ht : owns (threads t))
    (hunique : ∀ t', owns (threads t') → t' = t)
  | outstanding (hbusy : busy = true) (hops : ops = 1) (hno : ∀ t, ¬owns (threads t))

namespace Turn

variable {τ α : Type} [DecidableEq τ] {owns : α → Prop} {threads : τ → α} {busy : Bool} {ops : Nat}
  {t : τ} {x : α}

omit [DecidableEq τ] in
theorem unique (h : Turn owns threads busy ops) (ht : owns (threads t)) :
    busy = true ∧ ops = 0 ∧ ∀ t', owns (threads t') → t' = t := by
  cases h with
  | free _ _ hno => exact absurd ht (hno t)
  | held t'' hbusy hops _ hunique =>
    exact ⟨hbusy, hops, fun t' ht' => (hunique t' ht').trans (hunique t ht).symm⟩
  | outstanding _ _ hno => exact absurd ht (hno t)

theorem move (h : Turn owns threads busy ops) (hx : owns x ↔ owns (threads t)) :
    Turn owns (Function.update threads t x) busy ops := by
  have hiff := Threads.update_iff owns hx
  cases h with
  | free hbusy hops hno => exact .free hbusy hops fun t' ht' => hno t' ((hiff t').mp ht')
  | held t' hbusy hops ht' hunique =>
    exact .held t' hbusy hops ((hiff t').mpr ht') fun t'' ht'' => hunique t'' ((hiff t'').mp ht'')
  | outstanding hbusy hops hno =>
    exact .outstanding hbusy hops fun t' ht' => hno t' ((hiff t').mp ht')

theorem take (h : Turn owns threads false ops) (hx : owns x) :
    Turn owns (Function.update threads t x) true ops := by
  cases h with
  | free _ hops hno =>
    refine .held t rfl hops ?_ fun t' ht' => Threads.eq_of_update owns hno ht'
    rw [Function.update_self]
    exact hx
  | held _ hbusy => cases hbusy
  | outstanding hbusy => cases hbusy

theorem start (h : Turn owns threads busy ops) (ht : owns (threads t)) (hx : ¬owns x) :
    Turn owns (Function.update threads t x) busy (ops + 1) := by
  obtain ⟨hbusy, hops, hunique⟩ := h.unique ht
  exact .outstanding hbusy (congrArg Nat.succ hops) (Threads.not_update owns hx hunique)

theorem complete (h : Turn owns threads busy (ops + 1)) (hx : owns x) :
    Turn owns (Function.update threads t x) busy ops := by
  cases h with
  | free _ hops => cases hops
  | held _ _ hops => cases hops
  | outstanding hbusy hops hno =>
    refine .held t hbusy (Nat.succ.inj hops) ?_ fun t' ht' => Threads.eq_of_update owns hno ht'
    rw [Function.update_self]
    exact hx

theorem release (h : Turn owns threads busy ops) (ht : owns (threads t)) (hx : ¬owns x) :
    Turn owns (Function.update threads t x) false ops := by
  obtain ⟨-, hops, hunique⟩ := h.unique ht
  exact .free rfl hops (Threads.not_update owns hx hunique)

omit [DecidableEq τ] in
theorem ops_le_one (h : Turn owns threads busy ops) : ops ≤ 1 := by
  cases h with
  | free _ hops => omega
  | held _ _ hops => omega
  | outstanding _ hops => omega

omit [DecidableEq τ] in
theorem free_of_not_owns (h : Turn owns threads busy 0) (hno : ∀ t, ¬owns (threads t)) :
    busy = false := by
  cases h with
  | free hbusy => exact hbusy
  | held t _ _ ht => exact absurd ht (hno t)
  | outstanding _ hops => cases hops

end Turn
