import Mathlib.Logic.Function.Iterate
import Lax.Net.Buffer.Impl.Extent

/-!
This module contains how a buffer grows.
-/

namespace Lax

namespace BufferPool

theorem le_capacityFor (n : Nat) : n ≤ capacityFor n := by
  unfold capacityFor
  cases hfind : classes.find? fun length => n ≤ length with
  | none => simp
  | some length => simpa using List.find?_some hfind

theorem capacityFor_le_of_mem {n length : Nat} (hmem : length ∈ classes) (hle : n ≤ length) :
    capacityFor n ≤ length := by
  have hsorted : classes.Pairwise (· < ·) := by decide
  unfold capacityFor
  cases hfind : classes.find? fun length => n ≤ length with
  | none =>
    rw [List.find?_eq_none] at hfind
    exact absurd (decide_eq_true hle) (hfind length hmem)
  | some first =>
    obtain ⟨-, before, after, heq, hbefore⟩ := List.find?_eq_some_iff_append.mp hfind
    rw [heq] at hmem hsorted
    rw [List.mem_append, List.mem_cons] at hmem
    rcases hmem with hmem | rfl | hmem
    . have hnot := hbefore length hmem
      simp at hnot
      omega
    . exact Nat.le_refl _
    . have hlt := (List.pairwise_cons.mp (List.pairwise_append.mp hsorted).2.1).1 length hmem
      exact Nat.le_of_lt hlt

theorem capacityFor_cases (n : Nat) :
    capacityFor n ∈ classes ∨ capacityFor n = n ∧ ∀ length ∈ classes, length < n := by
  unfold capacityFor
  cases hfind : classes.find? fun length => n ≤ length with
  | none =>
    right
    simpa using hfind
  | some length =>
    left
    exact List.mem_of_find?_eq_some hfind

theorem capacityFor_of_gt {n : Nat} (h : 2 ^ 21 < n) : capacityFor n = n := by
  rcases capacityFor_cases n with hmem | ⟨heq, -⟩
  . have hall : ∀ length ∈ classes, length ≤ 2 ^ 21 := by decide
    have hle := le_capacityFor n
    have hsmall := hall _ hmem
    omega
  . exact heq

theorem capacityFor_capacityFor (n : Nat) : capacityFor (capacityFor n) = capacityFor n := by
  rcases capacityFor_cases n with hmem | ⟨heq, -⟩
  . apply Nat.le_antisymm
    . exact capacityFor_le_of_mem hmem (Nat.le_refl _)
    . exact le_capacityFor _
  . rw [heq, heq]

theorem capacityFor_le_of_fixed {m n : Nat} (hfixed : capacityFor n = n) (hle : m ≤ n) :
    capacityFor m ≤ n := by
  rcases capacityFor_cases n with hmem | ⟨-, hall⟩
  . rw [hfixed] at hmem
    exact capacityFor_le_of_mem hmem hle
  . rcases capacityFor_cases m with hmem | ⟨heq, -⟩
    . exact Nat.le_of_lt (hall _ hmem)
    . rw [heq]
      exact hle

-- A block for `m` bytes has room for `n` if no class comes between them.
theorem le_capacityFor_iff {m n : Nat} (hle : m ≤ n) :
    n ≤ capacityFor m ↔ m = n ∨ n ≤ 2 ^ 21 ∧ ∀ length ∈ classes, length < n → length < m := by
  have hall : ∀ length ∈ classes, length ≤ 2 ^ 21 := by decide
  have hlast : 2 ^ 21 ∈ classes := by decide
  constructor
  . intro hroom
    rcases capacityFor_cases m with hmem | ⟨heq, -⟩
    . right
      refine ⟨Nat.le_trans hroom (hall _ hmem), ?_⟩
      intro length hlength hlt
      apply Nat.lt_of_not_le
      intro hm
      have := capacityFor_le_of_mem hlength hm
      omega
    . left
      omega
  . rintro (rfl | ⟨hsmall, hnone⟩)
    . exact le_capacityFor _
    . rcases capacityFor_cases m with hmem | ⟨-, hbig⟩
      . apply Nat.le_of_not_lt
        intro hlt
        have := hnone _ hmem hlt
        have := le_capacityFor m
        omega
      . have := hbig _ hlast
        omega

end BufferPool

namespace Extent

open BufferPool (capacityFor le_capacityFor)

theorem isSome_reserve (initialSize : Nat) (e : Extent) (len : Nat) :
    (e.reserve initialSize len).block.isSome = true := by
  unfold reserve
  cases hblock : e.block with
  | none => rfl
  | some capacity =>
    dsimp only
    split <;> simp [hblock]

-- There is room for what is going to be appended.
theorem le_capacity_reserve (initialSize : Nat) {e : Extent} (hempty : e.block = none → e.size = 0)
    (len : Nat) : e.size + len ≤ (e.reserve initialSize len).capacity := by
  unfold reserve capacity
  cases hblock : e.block with
  | none =>
    have hle := le_capacityFor (max len initialSize)
    simp [hempty hblock]
    omega
  | some capacity =>
    dsimp only
    split
    . have hle := le_capacityFor (e.size + len)
      simpa using hle
    . next hnot =>
      simp [hblock]
      omega

theorem size_reserve (initialSize : Nat) (e : Extent) (len : Nat) :
    (e.reserve initialSize len).size = e.size := by
  unfold reserve
  split
  . rfl
  . split <;> rfl

theorem size_le_append (initialSize : Nat) {e : Extent} (hempty : e.block = none → e.size = 0)
    (len : Nat) : (e.append initialSize len).size ≤ (e.append initialSize len).capacity := by
  have hle := le_capacity_reserve initialSize hempty len
  unfold append
  dsimp only
  rw [size_reserve]
  exact hle

theorem size_le_rewind {e : Extent} (h : e.size ≤ e.capacity) (pos : Nat) :
    (e.rewind pos).size ≤ (e.rewind pos).capacity := by
  unfold rewind
  split
  . exact h
  . unfold capacity at h ⊢
    dsimp only
    omega

theorem size_le_popFront {e : Extent} (h : e.size ≤ e.capacity) (count : Nat) :
    (e.popFront count).size ≤ (e.popFront count).capacity := by
  unfold popFront
  split
  . exact h
  . unfold capacity at h ⊢
    dsimp only
    omega

/-!
### Growing
-/

theorem growTo_of_le (initialSize : Nat) {e : Extent} {stop : Nat} (h : stop ≤ e.size) :
    e.growTo initialSize stop = e := by
  unfold growTo
  rw [if_pos h]

theorem growTo_of_lt (initialSize : Nat) {e : Extent} {stop : Nat} (h : e.size < stop) :
    e.growTo initialSize stop = (e.increaseBufferSize initialSize).growTo initialSize stop := by
  conv => lhs; unfold growTo
  rw [if_neg (Nat.not_le_of_lt h)]

theorem growTo_growTo (initialSize : Nat) {stop stop' : Nat} (hle : stop ≤ stop') (e : Extent) :
    (e.growTo initialSize stop).growTo initialSize stop' = e.growTo initialSize stop' := by
  fun_induction growTo initialSize e stop with
  | case1 e h => rfl
  | case2 e h ih =>
    rw [ih, ← growTo_of_lt]
    omega

theorem le_size_growTo (initialSize : Nat) (e : Extent) (stop : Nat) :
    stop ≤ (e.growTo initialSize stop).size := by
  fun_induction growTo initialSize e stop with
  | case1 e h => exact h
  | case2 e h ih => exact ih

end Extent
end Lax
