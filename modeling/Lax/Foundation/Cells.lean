import Mathlib.Data.List.Nodup
import Mathlib.Logic.Function.Basic

/-!
This module contains memory that is made of cells. A cell has an address, and who has the address of a
cell owns what is in it as long as nobody else has the same address.
-/

namespace Cells

-- All of the addresses have been handed out, each of them to one owner.
structure Apart (addrs : List Nat) (allocated : Nat) : Prop where
  nodup : addrs.Nodup
  lt : ∀ addr ∈ addrs, addr < allocated

namespace Apart

variable {addrs addrs' : List Nat} {allocated : Nat}

theorem nil : Apart [] allocated :=
  ⟨List.nodup_nil, fun _ h => absurd h List.not_mem_nil⟩

theorem perm (h : Apart addrs allocated) (hperm : addrs.Perm addrs') : Apart addrs' allocated := by
  constructor
  . exact hperm.nodup_iff.mp h.nodup
  . intro addr haddr
    apply h.lt
    exact hperm.mem_iff.mpr haddr

-- The next address is a new one.
theorem fresh (h : Apart addrs allocated) : Apart (allocated :: addrs) (allocated + 1) := by
  constructor
  . rw [List.nodup_cons]
    refine ⟨?_, h.nodup⟩
    intro hmem
    exact Nat.lt_irrefl _ (h.lt allocated hmem)
  . intro addr haddr
    rcases List.mem_cons.mp haddr with rfl | haddr
    . exact Nat.lt_succ_self _
    . exact Nat.lt_succ_of_lt (h.lt addr haddr)

theorem sublist (h : Apart addrs allocated) (hsub : addrs'.Sublist addrs) :
    Apart addrs' allocated :=
  ⟨h.nodup.sublist hsub, fun addr haddr => h.lt addr (hsub.subset haddr)⟩

theorem not_mem_of_append (h : Apart (addrs ++ addrs') allocated) {addr : Nat}
    (haddr : addr ∈ addrs') : addr ∉ addrs :=
  fun hmem => (List.disjoint_of_nodup_append h.nodup) hmem haddr

end Apart

variable {α : Type} {addrs : List Nat}

theorem map_update_of_not_mem (cell : Nat → α) {addr : Nat} (h : addr ∉ addrs) (x : α) :
    addrs.map (Function.update cell addr x) = addrs.map cell := by
  apply List.map_congr_left
  intro addr' haddr'
  apply Function.update_of_ne
  rintro rfl
  exact h haddr'

-- What is written to one of the cells changes the contents at one place.
theorem map_update (cell : Nat → α) (hnodup : addrs.Nodup) {i addr : Nat}
    (haddr : addrs[i]? = some addr) (x : α) :
    addrs.map (Function.update cell addr x) = (addrs.map cell).set i x := by
  induction addrs generalizing i with
  | nil => cases haddr
  | cons addr' addrs ih =>
    rw [List.nodup_cons] at hnodup
    cases i with
    | zero =>
      injection haddr with haddr
      subst haddr
      rw [List.map_cons, List.map_cons, List.set_cons_zero, Function.update_self,
        map_update_of_not_mem cell hnodup.1]
    | succ i =>
      rw [List.getElem?_cons_succ] at haddr
      have hne : addr' ≠ addr := by
        rintro rfl
        exact hnodup.1 (List.mem_of_getElem? haddr)
      rw [List.map_cons, List.map_cons, List.set_cons_succ, Function.update_of_ne hne,
        ih hnodup.2 haddr]

-- One of the owners exchanges what it has.
theorem count_flatMap_set {α β : Type} [DecidableEq β] {f : α → List β} {xs : List α} {i : Nat} {x : α}
    (h : xs[i]? = some x) (x' : α) (y : β) :
    ((xs.set i x').flatMap f).count y + (f x).count y
      =
    (xs.flatMap f).count y + (f x').count y := by
  induction xs generalizing i with
  | nil => cases h
  | cons x'' xs ih =>
    cases i with
    | zero =>
      injection h with h
      subst h
      simp only [List.set_cons_zero, List.flatMap_cons, List.count_append]
      omega
    | succ i =>
      have := ih h
      simp only [List.set_cons_succ, List.flatMap_cons, List.count_append]
      omega

theorem forall_mem_modify {α : Type} {P : α → Prop} {g : α → α} {xs : List α} {i : Nat}
    (h : ∀ x ∈ xs, P x) (hg : ∀ x, xs[i]? = some x → P (g x)) : ∀ x ∈ xs.modify i g, P x := by
  intro x hx
  obtain ⟨j, hj, rfl⟩ := List.mem_iff_getElem.mp hx
  rw [List.length_modify] at hj
  rw [List.getElem_modify]
  split
  . next heq =>
    apply hg
    exact heq ▸ List.getElem?_eq_getElem hj
  . exact h _ (List.getElem_mem hj)

theorem map_modify_of_eq {α β : Type} {f : α → β} {g : α → α} (h : ∀ x, f (g x) = f x) (xs : List α)
    (i : Nat) : (xs.modify i g).map f = xs.map f := by
  induction xs generalizing i with
  | nil => cases i <;> rfl
  | cons x xs ih =>
    cases i with
    | zero => rw [List.modify_zero_cons, List.map_cons, List.map_cons, h]
    | succ i => rw [List.modify_succ_cons, List.map_cons, List.map_cons, ih]

theorem exists_perm_flatMap_modify {α β : Type} (f : α → List β) (g : α → α) {xs : List α} {i : Nat}
    {x : α} (h : xs[i]? = some x) :
    ∃ rest, (xs.flatMap f).Perm (f x ++ rest) ∧ ((xs.modify i g).flatMap f).Perm (f (g x) ++ rest) := by
  induction xs generalizing i with
  | nil => cases h
  | cons x' xs ih =>
    cases i with
    | zero =>
      cases h
      rw [List.modify_zero_cons, List.flatMap_cons, List.flatMap_cons]
      exact ⟨_, List.Perm.refl _, List.Perm.refl _⟩
    | succ i =>
      obtain ⟨rest, hxs, hmodify⟩ := ih h
      rw [List.modify_succ_cons, List.flatMap_cons, List.flatMap_cons]
      refine ⟨f x' ++ rest, ?_, ?_⟩
      . exact (hxs.append_left _).trans (List.perm_append_comm_assoc _ _ _)
      . exact (hmodify.append_left _).trans (List.perm_append_comm_assoc _ _ _)

end Cells
