import Mathlib.Data.List.Sort

/-!
This module contains priority queues as their users see them: what is at the front is a greatest
element, and which of several greatest ones it is depends on the queue.
-/

structure MaxQueue {α : Type} (lt : α → α → Prop) where
  items : List α
  greatest : ∀ a ∈ items.head?, ∀ b ∈ items, ¬lt a b

structure PriorityQueue {α : Type} (lt : α → α → Prop) where
  push : MaxQueue lt → α → MaxQueue lt
  pop : MaxQueue lt → MaxQueue lt
  push_perm : ∀ q a, (push q a).items.Perm (a :: q.items)
  pop_perm : ∀ q a l, q.items = a :: l → (pop q).items.Perm l

namespace MaxQueue

variable {α : Type} {lt : α → α → Prop}

def empty : MaxQueue lt where
  items := []
  greatest := by
    intro a ha
    cases ha

-- `f` does not change how elements compare.
def map (q : MaxQueue lt) (f : α → α) (hf : ∀ a b, lt (f a) (f b) → lt a b) : MaxQueue lt where
  items := q.items.map f
  greatest := by
    intro a ha b hb
    rw [List.head?_map] at ha
    obtain ⟨a, hhead, rfl⟩ := Option.map_eq_some_iff.mp ha
    obtain ⟨b, hmem, rfl⟩ := List.mem_map.mp hb
    exact fun hlt => q.greatest a hhead b hmem (hf a b hlt)

theorem not_lt_of_items {q : MaxQueue lt} {a b : α} {l : List α} (h : q.items = a :: l)
    (hb : b ∈ q.items) : ¬lt a b := by
  apply q.greatest a _ b hb
  rw [h]
  exact rfl

end MaxQueue

namespace PriorityQueue

variable {α : Type} {lt : α → α → Prop} (pq : PriorityQueue lt)

/-!
### The order in which a queue gives what it holds
-/

def drainAux : Nat → MaxQueue lt → List α
  | 0, _ => []
  | fuel + 1, q =>
    match q.items with
    | [] => []
    | a :: _ => a :: drainAux fuel (pq.pop q)

def drain (q : MaxQueue lt) : List α :=
  pq.drainAux q.items.length q

variable {pq} {q : MaxQueue lt} {a : α} {l : List α}

theorem drain_of_nil (h : q.items = []) : pq.drain q = [] := by
  unfold drain
  rw [h]
  rfl

theorem length_pop (h : q.items = a :: l) : (pq.pop q).items.length = l.length :=
  (pq.pop_perm q a l h).length_eq

theorem drain_of_cons (h : q.items = a :: l) : pq.drain q = a :: pq.drain (pq.pop q) := by
  unfold drain
  rw [length_pop h, h, List.length_cons]
  conv =>
    lhs
    unfold drainAux
  rw [h]

theorem drain_perm (pq : PriorityQueue lt) (q : MaxQueue lt) : (pq.drain q).Perm q.items := by
  generalize hn : q.items.length = n
  induction n generalizing q with
  | zero =>
    have hnil := List.length_eq_zero_iff.mp hn
    rw [drain_of_nil hnil, hnil]
  | succ n ih =>
    obtain ⟨a, l, h⟩ := List.exists_cons_of_length_eq_add_one hn
    rw [h, List.length_cons, Nat.add_right_cancel_iff, ← length_pop h] at hn
    rw [drain_of_cons h, h]
    exact ((ih _ hn).trans (pq.pop_perm q a l h)).cons a

theorem mem_drain : a ∈ pq.drain q ↔ a ∈ q.items :=
  (pq.drain_perm q).mem_iff

/-!
### A queue that is kept sorted
-/

section
variable [DecidableRel lt] (hasymm : ∀ a b, lt a b → ¬lt b a)
  (htrans : ∀ a b c, ¬lt a b → ¬lt b c → ¬lt a c)

def sort (l : List α) : MaxQueue lt where
  items := l.insertionSort fun a b => ¬lt a b
  greatest := by
    intro a ha b hb
    have htotal : Std.Total fun a b => ¬lt a b := ⟨fun a b => by
      by_cases h : lt a b
      . exact .inr (hasymm a b h)
      . exact .inl h⟩
    have htrans : IsTrans α fun a b => ¬lt a b := ⟨htrans⟩
    have hsorted := List.pairwise_insertionSort (fun a b => ¬lt a b) l
    cases hitems : l.insertionSort fun a b => ¬lt a b with
    | nil =>
      rw [hitems] at ha
      cases ha
    | cons a' l' =>
      rw [hitems] at ha hb hsorted
      injection ha with ha
      subst ha
      obtain rfl | hb := List.mem_cons.mp hb
      . exact fun hlt => hasymm _ _ hlt hlt
      . exact List.rel_of_pairwise_cons hsorted hb

def sorted : PriorityQueue lt where
  push q a := sort hasymm htrans (a :: q.items)
  pop q := sort hasymm htrans q.items.tail
  push_perm q a := List.perm_insertionSort _ _
  pop_perm q a l h := by
    rw [h]
    exact List.perm_insertionSort _ _

end
end PriorityQueue
