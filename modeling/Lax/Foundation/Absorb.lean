import Mathlib.Tactic.Common

/-!
This module contains functions that take in their input a block at a time. What has come in is known
by the state after its whole blocks and by the bytes after them.
-/

namespace Absorb

variable {σ α : Type} (bs : Nat) (compress : σ → List α → σ)

def blocks : Nat → σ → List α → σ
  | 0, s, _ => s
  | n + 1, s, xs => blocks n (compress s (xs.take bs)) (xs.drop bs)

def whole (s : σ) (xs : List α) : σ :=
  blocks bs compress (xs.length / bs) s xs

def rest (xs : List α) : List α :=
  xs.drop (xs.length / bs * bs)

variable {bs}

theorem length_rest (xs : List α) : (rest bs xs).length = xs.length % bs := by
  have hdiv := Nat.div_add_mod' xs.length bs
  rw [rest, List.length_drop]
  omega

theorem whole_of_lt {xs : List α} (h : xs.length < bs) (s : σ) : whole bs compress s xs = s := by
  rw [whole, Nat.div_eq_of_lt h]
  rfl

theorem rest_of_lt {xs : List α} (h : xs.length < bs) : rest bs xs = xs := by
  rw [rest, Nat.div_eq_of_lt h, Nat.zero_mul]
  rfl

variable (hpos : 0 < bs)
include hpos

theorem length_rest_lt (xs : List α) : (rest bs xs).length < bs := by
  rw [length_rest]
  exact Nat.mod_lt _ hpos

theorem length_div_of_le {xs : List α} (h : bs ≤ xs.length) :
    xs.length / bs = (xs.drop bs).length / bs + 1 := by
  rw [List.length_drop, ← Nat.div_eq_sub_div hpos h]

-- The first block of an input that has one.
theorem whole_of_le {xs : List α} (h : bs ≤ xs.length) (s : σ) :
    whole bs compress s xs = whole bs compress (compress s (xs.take bs)) (xs.drop bs) := by
  rw [whole, length_div_of_le hpos h]
  rfl

theorem rest_of_le {xs : List α} (h : bs ≤ xs.length) : rest bs xs = rest bs (xs.drop bs) := by
  rw [rest, rest, length_div_of_le hpos h, List.drop_drop, Nat.succ_mul, Nat.add_comm bs]

theorem whole_append (s : σ) (xs ys : List α) :
    whole bs compress s (xs ++ ys) = whole bs compress (whole bs compress s xs) (rest bs xs ++ ys)
      ∧ rest bs (xs ++ ys) = rest bs (rest bs xs ++ ys) := by
  induction hn : xs.length using Nat.strongRecOn generalizing s xs with
  | _ n ih =>
    by_cases hlt : xs.length < bs
    . rw [whole_of_lt compress hlt, rest_of_lt hlt]
      exact ⟨rfl, rfl⟩
    . have hle : bs ≤ xs.length := by omega
      have hle' : bs ≤ (xs ++ ys).length := by
        rw [List.length_append]
        omega
      rw [whole_of_le compress hpos hle', whole_of_le compress hpos hle, rest_of_le hpos hle',
        rest_of_le hpos hle, List.take_append_of_le_length hle, List.drop_append_of_le_length hle]
      exact ih (xs.drop bs).length (by rw [List.length_drop]; omega) _ (xs.drop bs) rfl

end Absorb
