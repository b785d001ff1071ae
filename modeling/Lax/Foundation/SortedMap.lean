import Mathlib.Order.Lattice

/-!
This module contains maps as lists that are sorted by their keys, each key being there once.
-/

variable {κ ν : Type} [LinearOrder κ]

-- An entry that is there already stays.
def emplaceSorted (k : κ) (v : ν) : List (κ × ν) → List (κ × ν)
  | [] => [(k, v)]
  | e :: es => if k < e.1 then (k, v) :: e :: es else if k = e.1 then e :: es else e :: emplaceSorted k v es

theorem mem_emplaceSorted {k : κ} {v : ν} {es : List (κ × ν)} {e : κ × ν}
    (h : e ∈ emplaceSorted k v es) : e = (k, v) ∨ e ∈ es := by
  induction es with
  | nil => exact Or.inl (List.mem_singleton.mp h)
  | cons e' es ih =>
    unfold emplaceSorted at h
    split at h
    . exact List.mem_cons.mp h
    . split at h
      . exact Or.inr h
      . obtain rfl | h := List.mem_cons.mp h
        . exact Or.inr List.mem_cons_self
        . exact (ih h).imp_right (List.mem_cons_of_mem e')

theorem pairwise_emplaceSorted (k : κ) (v : ν) {es : List (κ × ν)}
    (h : es.Pairwise fun x y => x.1 < y.1) :
    (emplaceSorted k v es).Pairwise fun x y => x.1 < y.1 := by
  induction es with
  | nil => exact List.pairwise_singleton _ _
  | cons e es ih =>
    have hcons := List.pairwise_cons.mp h
    unfold emplaceSorted
    split
    . next hlt =>
      apply List.pairwise_cons.mpr
      refine ⟨?_, h⟩
      intro e' he'
      obtain rfl | he' := List.mem_cons.mp he'
      . exact hlt
      . exact lt_trans hlt (hcons.1 e' he')
    . next hle =>
      split
      . exact h
      . next hne =>
        apply List.pairwise_cons.mpr
        refine ⟨?_, ih hcons.2⟩
        intro e' he'
        obtain rfl | he' := mem_emplaceSorted he'
        . exact lt_of_le_of_ne (not_lt.mp hle) (Ne.symm hne)
        . exact hcons.1 e' he'

theorem emplaceSorted_of_forall_lt {k : κ} {v : ν} {es : List (κ × ν)} (h : ∀ e ∈ es, e.1 < k) :
    emplaceSorted k v es = es ++ [(k, v)] := by
  induction es with
  | nil => rfl
  | cons e es ih =>
    rw [List.forall_mem_cons] at h
    unfold emplaceSorted
    rw [if_neg (not_lt_of_gt h.1), if_neg (ne_of_gt h.1), ih h.2]
    rfl

theorem length_emplaceSorted_le (k : κ) (v : ν) (es : List (κ × ν)) :
    (emplaceSorted k v es).length ≤ es.length + 1 := by
  induction es with
  | nil => exact Nat.le_refl 1
  | cons e es ih =>
    unfold emplaceSorted
    split
    . exact Nat.le_refl _
    . split
      . exact Nat.le_succ _
      . exact Nat.succ_le_succ ih

structure SortedMap (κ ν : Type) [LinearOrder κ] where
  entries : List (κ × ν)
  sorted : entries.Pairwise fun x y => x.1 < y.1

namespace SortedMap

def empty : SortedMap κ ν :=
  ⟨[], .nil⟩

def emplace (m : SortedMap κ ν) (k : κ) (v : ν) : SortedMap κ ν :=
  ⟨emplaceSorted k v m.entries, pairwise_emplaceSorted k v m.sorted⟩

@[ext]
theorem ext {m m' : SortedMap κ ν} (h : m.entries = m'.entries) : m = m' := by
  cases m
  cases m'
  congr

end SortedMap
