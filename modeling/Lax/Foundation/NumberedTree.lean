import Mathlib.Data.List.Basic
import Mathlib.Data.List.Induction
import Mathlib.Logic.Function.Basic

/-!
This module contains rooted trees whose nodes are numbered in the order in which they were added.
-/

structure NumberedTree where
  size : Nat
  parent : Nat → Option Nat
  childs : Nat → List Nat
  size_pos : 0 < size
  parent_lt : ∀ i p, parent i = some p → p < i
  lt_size : ∀ i p, parent i = some p → i < size
  exists_parent : ∀ i, 0 < i → i < size → ∃ p, parent i = some p
  mem_childs : ∀ i c, c ∈ childs i ↔ parent c = some i

namespace NumberedTree

variable {t : NumberedTree} {i j k p : Nat}

def root : NumberedTree where
  size := 1
  parent _ := none
  childs _ := []
  size_pos := Nat.one_pos
  parent_lt _ _ h := absurd h (Option.some_ne_none _).symm
  lt_size _ _ h := absurd h (Option.some_ne_none _).symm
  exists_parent _ hpos hlt := absurd hlt (Nat.not_lt.mpr hpos)
  mem_childs _ _ := iff_of_false List.not_mem_nil (Option.some_ne_none _).symm

/-!
### From the root to a node
-/

def path (t : NumberedTree) (i : Nat) : List Nat :=
  match _h : t.parent i with
  | none => [i]
  | some p => t.path p ++ [i]
termination_by i
decreasing_by exact t.parent_lt i p _h

theorem path_of_none (h : t.parent i = none) : t.path i = [i] := by
  unfold path
  split
  . rfl
  . next h' =>
    rw [h] at h'
    contradiction

theorem path_of_some (h : t.parent i = some p) : t.path i = t.path p ++ [i] := by
  conv =>
    lhs
    unfold path
  split
  . next h' =>
    rw [h] at h'
    contradiction
  . next p' h' =>
    rw [h] at h'
    injection h' with h'
    rw [h']

theorem path_cases (t : NumberedTree) (i : Nat) :
    (t.parent i = none ∧ t.path i = [i])
      ∨ ∃ p, t.parent i = some p ∧ p < i ∧ t.path i = t.path p ++ [i] := by
  cases h : t.parent i with
  | none => exact .inl ⟨rfl, path_of_none h⟩
  | some p => exact .inr ⟨p, rfl, t.parent_lt i p h, path_of_some h⟩

theorem parent_zero (t : NumberedTree) : t.parent 0 = none := by
  cases h : t.parent 0 with
  | none => rfl
  | some p => exact absurd (t.parent_lt 0 p h) (Nat.not_lt_zero p)

theorem eq_zero_of_parent (h : i < t.size) (hparent : t.parent i = none) : i = 0 := by
  by_contra hne
  obtain ⟨p, hp⟩ := t.exists_parent i (Nat.pos_of_ne_zero hne) h
  rw [hparent] at hp
  contradiction

theorem path_zero (t : NumberedTree) : t.path 0 = [0] :=
  path_of_none t.parent_zero

theorem mem_path_self (t : NumberedTree) (i : Nat) : i ∈ t.path i := by
  obtain ⟨-, h⟩ | ⟨p, -, -, h⟩ := t.path_cases i
  . rw [h]
    exact List.mem_singleton_self i
  . rw [h]
    exact List.mem_append_right _ (List.mem_singleton_self i)

theorem mem_path_iff (h : t.parent i = some p) : j ∈ t.path i ↔ j ∈ t.path p ∨ j = i := by
  rw [path_of_some h, List.mem_append, List.mem_singleton]

theorem parent_mem_path (h : t.parent i = some p) : p ∈ t.path i :=
  (mem_path_iff h).mpr (.inl (t.mem_path_self p))

theorem le_of_mem_path (h : j ∈ t.path i) : j ≤ i := by
  induction i using Nat.strongRecOn with
  | _ i ih =>
    obtain ⟨-, hpath⟩ | ⟨p, hparent, hlt, -⟩ := t.path_cases i
    . rw [hpath, List.mem_singleton] at h
      exact Nat.le_of_eq h
    . rw [mem_path_iff hparent] at h
      obtain h | rfl := h
      . exact Nat.le_trans (ih p hlt h) (Nat.le_of_lt hlt)
      . exact Nat.le_refl j

theorem length_path_le (t : NumberedTree) (i : Nat) : (t.path i).length ≤ i + 1 := by
  induction i using Nat.strongRecOn with
  | _ i ih =>
    obtain ⟨-, hpath⟩ | ⟨p, -, hlt, hpath⟩ := t.path_cases i
    . rw [hpath, List.length_singleton]
      exact Nat.le_add_left 1 i
    . rw [hpath, List.length_append, List.length_singleton]
      have := ih p hlt
      omega

-- Adding nodes leaves the paths that there were.
theorem path_congr {t' : NumberedTree} {n : Nat} (h : ∀ k < n, t'.parent k = t.parent k)
    (hi : i < n) : t'.path i = t.path i := by
  induction i using Nat.strongRecOn with
  | _ i ih =>
    obtain ⟨hnone, hpath⟩ | ⟨p, hsome, hlt, hpath⟩ := t.path_cases i
    . rw [path_of_none ((h i hi).trans hnone), hpath]
    . rw [path_of_some ((h i hi).trans hsome), hpath, ih p hlt (Nat.lt_trans hlt hi)]

-- A node comes after everything that is above it.
theorem exists_append_of_mem_path (h : j ∈ t.path i) : ∃ rest, t.path i = t.path j ++ rest := by
  induction i using Nat.strongRecOn with
  | _ i ih =>
    obtain ⟨-, hpath⟩ | ⟨p, hparent, hlt, hpath⟩ := t.path_cases i
    . have heq : j = i := by rwa [hpath, List.mem_singleton] at h
      exact ⟨[], by rw [heq, List.append_nil]⟩
    . rw [mem_path_iff hparent] at h
      obtain h | rfl := h
      . obtain ⟨rest, hrest⟩ := ih p hlt h
        exact ⟨rest ++ [i], by rw [hpath, hrest, List.append_assoc]⟩
      . exact ⟨[], (List.append_nil _).symm⟩

theorem mem_path_trans (h : k ∈ t.path j) (h' : j ∈ t.path i) : k ∈ t.path i := by
  obtain ⟨rest, hrest⟩ := exists_append_of_mem_path h'
  rw [hrest]
  exact List.mem_append_left _ h

theorem mem_path_total (h : i ∈ t.path k) (h' : j ∈ t.path k) : i ∈ t.path j ∨ j ∈ t.path i := by
  induction k using Nat.strongRecOn with
  | _ k ih =>
    obtain ⟨-, hpath⟩ | ⟨p, hparent, hlt, -⟩ := t.path_cases k
    . rw [hpath, List.mem_singleton] at h h'
      exact .inl (h ▸ h'.symm ▸ mem_path_self t k)
    . have hj := h'
      have hi := h
      rw [mem_path_iff hparent] at h h'
      obtain h | rfl := h
      . obtain h' | rfl := h'
        . exact ih p hlt h h'
        . exact .inl hi
      . exact .inr hj

theorem path_injective (h : t.path i = t.path j) : i = j :=
  Nat.le_antisymm (le_of_mem_path (h ▸ mem_path_self t i)) (le_of_mem_path (h ▸ mem_path_self t j))

-- The last of the nodes below `i` on the path, and its parent.
theorem parent_of_path_append {rest : List Nat} (h : t.path j = t.path i ++ (rest ++ [k])) :
    k = j ∧ ∃ p, t.parent j = some p ∧ t.path p = t.path i ++ rest := by
  obtain ⟨-, hpath⟩ | ⟨p, hparent, -, hpath⟩ := t.path_cases j
  . have hlength := congrArg List.length (hpath.symm.trans h)
    have hpos := List.length_pos_of_mem (t.mem_path_self i)
    rw [List.length_singleton, List.length_append, List.length_append,
      List.length_singleton] at hlength
    omega
  . have heq := hpath.symm.trans h
    rw [← List.append_assoc] at heq
    obtain ⟨hrest, hk⟩ := List.append_inj' heq rfl
    injection hk with hk
    exact ⟨hk.symm, p, hparent, hrest⟩

-- One node below `j` on the way to `i`.
theorem parent_of_path {rest : List Nat} (h : t.path i = t.path j ++ k :: rest) :
    t.parent k = some j ∧ t.path i = t.path k ++ rest := by
  induction rest using List.reverseRecOn generalizing i with
  | nil =>
    have h' : t.path i = t.path j ++ ([] ++ [k]) := h
    obtain ⟨rfl, p, hparent, hrest⟩ := parent_of_path_append h'
    rw [List.append_nil] at hrest
    exact ⟨path_injective hrest ▸ hparent, (List.append_nil _).symm⟩
  | append_singleton rest last ih =>
    rw [← List.cons_append] at h
    obtain ⟨rfl, p, hparent, hrest⟩ := parent_of_path_append h
    obtain ⟨hk, hpath⟩ := ih hrest
    refine ⟨hk, ?_⟩
    rw [path_of_some hparent, hpath, List.append_assoc]

theorem zero_mem_path (h : i < t.size) : 0 ∈ t.path i := by
  induction i using Nat.strongRecOn with
  | _ i ih =>
    by_cases hpos : 0 < i
    . obtain ⟨p, hparent⟩ := t.exists_parent i hpos h
      have hlt := t.parent_lt i p hparent
      exact (mem_path_iff hparent).mpr (.inl (ih p hlt (Nat.lt_trans hlt h)))
    . rw [Nat.eq_zero_of_not_pos hpos]
      exact mem_path_self t 0

theorem lt_size_of_mem_path (h : i ∈ t.path j) (hi : i < t.size) : j < t.size := by
  obtain ⟨-, hpath⟩ | ⟨p, hparent, -, -⟩ := t.path_cases j
  . rw [hpath, List.mem_singleton] at h
    exact h ▸ hi
  . exact t.lt_size j p hparent

theorem getLast?_path (t : NumberedTree) (i : Nat) : (t.path i).getLast? = some i := by
  obtain ⟨-, h⟩ | ⟨p, -, -, h⟩ := t.path_cases i
  . rw [h, List.getLast?_singleton]
  . rw [h, List.getLast?_concat]

theorem path_eq_cons (h : i < t.size) : ∃ rest, t.path i = 0 :: rest := by
  obtain ⟨rest, hrest⟩ := exists_append_of_mem_path (zero_mem_path h)
  exact ⟨rest, by rw [hrest, path_zero, List.singleton_append]⟩

theorem exists_child_of_mem_path (h : i ∈ t.path j) (hne : i ≠ j) :
    ∃ c, t.parent c = some i ∧ c ∈ t.path j := by
  obtain ⟨rest, hrest⟩ := exists_append_of_mem_path h
  cases rest with
  | nil =>
    rw [List.append_nil] at hrest
    exact absurd (path_injective hrest).symm hne
  | cons c rest =>
    obtain ⟨hparent, hpath⟩ := parent_of_path hrest
    refine ⟨c, hparent, ?_⟩
    rw [hpath]
    exact List.mem_append_left _ (mem_path_self t c)

/-!
### Adding a node
-/

-- `childs` has the new node beside the children of `i` that there were.
def add (t : NumberedTree) (i : Nat) (h : i < t.size) (childs : List Nat)
    (hchilds : ∀ c, c ∈ childs ↔ c = t.size ∨ c ∈ t.childs i) : NumberedTree where
  size := t.size + 1
  parent := Function.update t.parent t.size (some i)
  childs := Function.update t.childs i childs
  size_pos := Nat.succ_pos _
  parent_lt j p hparent := by
    rw [Function.update_apply] at hparent
    split at hparent
    . next heq =>
      injection hparent with hparent
      exact hparent ▸ heq ▸ h
    . exact t.parent_lt j p hparent
  lt_size j p hparent := by
    rw [Function.update_apply] at hparent
    split at hparent
    . next heq => exact heq ▸ Nat.lt_succ_self _
    . exact Nat.lt_succ_of_lt (t.lt_size j p hparent)
  exists_parent j hpos hlt := by
    rw [Function.update_apply]
    split
    . exact ⟨i, rfl⟩
    . next hne => exact t.exists_parent j hpos (by omega)
  mem_childs j c := by
    have hnew : t.parent t.size = none := by
      cases hparent : t.parent t.size with
      | none => rfl
      | some p => exact absurd (t.lt_size _ _ hparent) (Nat.lt_irrefl _)
    rw [Function.update_apply, Function.update_apply]
    by_cases hj : j = i
    . rw [if_pos hj, hchilds, hj, t.mem_childs]
      split
      . next hc => simp [hc]
      . next hc => rw [or_iff_right hc]
    . rw [if_neg hj, t.mem_childs]
      split
      . next hc =>
        rw [hc, hnew]
        simp [Ne.symm hj]
      . rfl

end NumberedTree
