import Lax.Util.Lemmas.StateGraph
import Lax.Util.Lemmas.StateMachine

/-!
This module contains the tree of the state machine, to which only new states are added, as states
that point at each other.
-/

namespace Lax
namespace StateTree

variable {κ : Type} {t : StateTree κ} {i j c : Nat}

def toGraph (t : StateTree κ) : StateGraph κ where
  size := t.size
  key := t.key
  childs := t.childs
  parent := t.parent
  size_pos := t.size_pos
  childs_lt i c h := by
    have hparent := (t.mem_childs i c).mp h
    have hlt := t.lt_size c i hparent
    exact ⟨Nat.lt_trans (t.parent_lt c i hparent) hlt, hlt⟩
  parent_eq_none i h := by
    cases hparent : t.parent i with
    | none => rfl
    | some p => exact absurd (t.lt_size i p hparent) (Nat.not_lt.mpr h)

theorem child_toGraph : t.toGraph.Child i c ↔ t.parent c = some i :=
  t.mem_childs i c

theorem tree_toGraph (t : StateTree κ) : Rooted.Tree t.toGraph.Child 0 := by
  apply Rooted.tree_of_pred
  . intro a _ ha
    rw [child_toGraph, t.parent_zero] at ha
    cases ha
  . intro a b c _ _ ha hb
    rw [child_toGraph] at ha hb
    exact Option.some.inj (ha.symm.trans hb)

theorem below_toGraph_iff : t.toGraph.Below i j ↔ i ∈ t.path j := by
  constructor
  . intro h
    induction h with
    | refl => exact t.mem_path_self i
    | tail _ hchild ih => exact (NumberedTree.mem_path_iff (child_toGraph.mp hchild)).mpr (.inl ih)
  . intro hj
    induction j using Nat.strongRecOn with
    | _ j ih =>
      obtain ⟨-, hpath⟩ | ⟨p, hparent, hlt, -⟩ := t.path_cases j
      . rw [hpath, List.mem_singleton] at hj
        exact hj ▸ .refl
      . rw [NumberedTree.mem_path_iff hparent] at hj
        obtain hj | rfl := hj
        . exact (ih p hlt hj).tail (child_toGraph.mpr hparent)
        . exact .refl

theorem below_toGraph (hi : i < t.size) : t.toGraph.Below 0 i :=
  below_toGraph_iff.mpr (NumberedTree.zero_mem_path hi)

-- Only the keys are left to chance.
theorem isTree_toGraph_iff :
    t.toGraph.IsTree 0 ↔ ∀ i j, i < t.size → j < t.size → t.key i = t.key j → i = j := by
  constructor
  . intro h i j hi hj
    exact h.key i j (below_toGraph hi) (below_toGraph hj)
  . intro hkeys
    constructor
    . exact tree_toGraph t
    . exact fun i _ c => child_toGraph.mp
    . intro i j hi hj
      exact hkeys i j (StateGraph.below_lt hi t.size_pos) (StateGraph.below_lt hj t.size_pos)

variable [LinearOrder κ] {target : κ}

theorem find_cons (h : t.key i ≠ target) :
    t.find i target = (t.childs i).findSome? fun c => t.find c target := by
  rw [StateTree.find, if_neg h]
  simp

theorem findWithin_toGraph {fuel : Nat} (hi : i < t.size) (hfuel : t.size ≤ i + fuel) :
    t.toGraph.findWithin target fuel i = some (t.find i target) := by
  induction fuel generalizing i with
  | zero => omega
  | succ fuel ih =>
    by_cases heq : t.key i = target
    . rw [StateGraph.findWithin_of_eq heq, StateTree.find, if_pos heq]
    . rw [StateGraph.findWithin_of_ne heq, find_cons heq]
      apply findSomeM_mono _ List.findSomeM?_pure
      intro c hc found hfound
      have hparent := (t.mem_childs i c).mp hc
      have hlt := t.parent_lt c i hparent
      have hsize := t.lt_size c i hparent
      rw [← hfound]
      exact ih hsize (by omega)

theorem find_toGraph (hi : i < t.size) (target : κ) :
    t.toGraph.find i target = some (t.find i target) :=
  findWithin_toGraph hi (Nat.le_add_left t.size i)

theorem has_eq (hi : i < t.size) (target : κ) : t.has i target = (t.find i target).isSome := by
  have hfind := find_toGraph hi target
  cases hfound : t.find i target with
  | some j =>
    obtain ⟨hbelow, hkey⟩ := StateGraph.below_of_findWithin (hfind.trans (congrArg some hfound))
    exact has_iff.mpr ⟨j, below_toGraph_iff.mp hbelow, hkey⟩
  | none =>
    apply Bool.eq_false_iff.mpr
    intro hhas
    obtain ⟨j, hpath, hkey⟩ := has_iff.mp hhas
    exact StateGraph.ne_of_findWithin (hfind.trans (congrArg some hfound))
      (below_toGraph_iff.mpr hpath) hkey

-- A state that is added to the tree is one that has just been made.
theorem addTo_toGraph (h : i < t.size) (target : κ) :
    (t.toGraph.create target).addTo i (some t.size)
      = some (if t.has i target then (t.toGraph.create target, false)
          else ((t.add i target h).toGraph, true)) := by
  have hlt : i < (t.toGraph.create target).size ∧ t.size < (t.toGraph.create target).size :=
    ⟨Nat.lt_succ_of_lt h, Nat.lt_succ_self _⟩
  have hkey : (t.toGraph.create target).key t.size = target := Function.update_self _ _ _
  have hfind := StateGraph.find_create target h (find_toGraph h target)
  simp only [StateGraph.addTo]
  rw [dif_pos hlt, hkey, StateGraph.has_eq, hfind, has_eq h]
  rfl

end StateTree
end Lax
