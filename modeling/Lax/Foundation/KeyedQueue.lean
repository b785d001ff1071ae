import Mathlib.Data.List.Sort
import Mathlib.Data.List.Infix
import Mathlib.Order.Defs.LinearOrder

/-!
This module contains priority queues of references: what they are ordered by is kept with what they refer
to. Which of several greatest elements gets to the front depends on the queue.
-/

def FrontGreatest {α κ : Type} [LE κ] (key : α → κ) (q : List α) : Prop :=
  ∀ a ∈ q.head?, ∀ b ∈ q, key b ≤ key a

structure KeyedQueue (α κ : Type) [LE κ] where
  push : (α → κ) → List α → α → List α
  pop : (α → κ) → List α → List α
  push_perm : ∀ key q a, (push key q a).Perm (a :: q)
  pop_perm : ∀ key q a l, q = a :: l → (pop key q).Perm l
  push_front : ∀ key q a, FrontGreatest key q → FrontGreatest key (push key q a)
  pop_front : ∀ key q, FrontGreatest key q → FrontGreatest key (pop key q)

namespace FrontGreatest

variable {α κ : Type} [LE κ] {key key' : α → κ} {q : List α}

theorem nil : FrontGreatest key [] := by
  intro a ha
  cases ha

theorem congr (h : FrontGreatest key q) (hkey : ∀ a ∈ q, key' a = key a) : FrontGreatest key' q := by
  intro a ha b hb
  rw [hkey b hb, hkey a (List.mem_of_mem_head? ha)]
  exact h a ha b hb

end FrontGreatest

namespace KeyedQueue

variable {α κ : Type} [LinearOrder κ]

def sort (key : α → κ) (q : List α) : List α :=
  q.insertionSort fun a b => key b ≤ key a

theorem sort_front (key : α → κ) (q : List α) : FrontGreatest key (sort key q) := by
  have htotal : Std.Total fun a b => key b ≤ key a := ⟨fun a b => le_total (key b) (key a)⟩
  have htrans : IsTrans α fun a b => key b ≤ key a := ⟨fun _ _ _ hab hbc => hbc.trans hab⟩
  have hsorted := List.pairwise_insertionSort (fun a b => key b ≤ key a) q
  intro a ha b hb
  unfold sort at ha hb
  cases hitems : q.insertionSort fun a b => key b ≤ key a with
  | nil =>
    rw [hitems] at ha
    cases ha
  | cons a' l =>
    rw [hitems] at ha hb hsorted
    cases ha
    obtain rfl | hb := List.mem_cons.mp hb
    . apply le_refl
    . exact List.rel_of_pairwise_cons hsorted hb

-- A queue that is kept sorted.
def sorted : KeyedQueue α κ where
  push key q a := sort key (a :: q)
  pop key q := sort key q.tail
  push_perm _ _ _ := List.perm_insertionSort _ _
  pop_perm key q a l h := by
    rw [h]
    apply List.perm_insertionSort
  push_front key q a _ := sort_front key (a :: q)
  pop_front key q _ := sort_front key q.tail

end KeyedQueue
