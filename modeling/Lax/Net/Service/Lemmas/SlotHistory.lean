import Lax.Foundation.Cells
import Lax.Net.Service.Impl.SlotHistory
import Lax.Net.Service.Lemmas.SlotTable

/-!
This module contains when a slot can be reused: never after all of the slots have been made once, as a
full table is refused before its free slots are looked at.
-/

namespace Lax
namespace SlotHistory

open SlotTable

variable {s s' : SlotHistory} {table : SlotTable} {sp : SessionPtr}

/-!
### Nobody shares a slot
-/

def slots (s : SlotHistory) : List Nat :=
  s.table.freeSlots ++ s.live.map (·.id.index)

def Inv (s : SlotHistory) : Prop :=
  Cells.Apart s.slots s.table.sessions.length

theorem inv_create (h : s.Inv) : s.create.Inv := by
  unfold create
  cases hnew : s.table.newId with
  | none => exact h
  | some r =>
    obtain ⟨id, table⟩ := r
    unfold Inv slots at h ⊢
    dsimp only
    rw [List.map_cons]
    obtain ⟨hnil, hnil', hindex, hlength⟩ | ⟨hfree, hlength⟩ := (freeSlot_of_newId hnew).slots
    . rw [hnil] at h
      rw [hnil', hindex, hlength]
      apply h.fresh
    . rw [hfree] at h
      rw [hlength]
      apply h.perm
      exact List.perm_middle.symm

theorem length_register (table : SlotTable) (sp : SessionPtr) :
    (table.register sp).sessions.length = table.sessions.length := by
  apply length_modify

theorem inv_register (h : s.Inv) (sp : SessionPtr) : (s.register sp).Inv := by
  unfold Inv register
  rw [length_register]
  exact h

theorem inv_abandon (h : s.Inv) (sp : SessionPtr) : (s.abandon sp).Inv := by
  apply Cells.Apart.sublist h
  apply List.Sublist.append_left
  apply List.Sublist.map
  exact List.erase_sublist

theorem lt_of_live (h : s.Inv) (hsp : sp ∈ s.live) : sp.id.index < s.table.sessions.length := by
  apply h.lt
  apply List.mem_append_right
  apply List.mem_map_of_mem (f := fun sp : SessionPtr => sp.id.index) hsp

theorem inv_error (h : s.Inv) (hsp : sp ∈ s.live) : (s.error sp).Inv := by
  obtain ⟨hfree, hlength, -⟩ := error_eq (lt_of_live h hsp)
  have hlive := (List.perm_cons_erase hsp).map fun sp : SessionPtr => sp.id.index
  unfold Inv slots error
  dsimp only
  rw [hfree, hlength, List.append_assoc]
  apply h.perm
  apply List.Perm.append_left
  exact hlive

theorem inv_step (h : s.Inv) {e : Event} (horderly : s.Orderly e) (hstep : s.step e = some s') :
    s'.Inv := by
  cases e with
  | create =>
    injection hstep with hstep
    subst hstep
    apply inv_create h
  | register sp =>
    obtain ⟨-, hstep⟩ := Option.ite_none_right_eq_some.mp hstep
    injection hstep with hstep
    subst hstep
    apply inv_register h
  | abandon sp =>
    obtain ⟨-, hstep⟩ := Option.ite_none_right_eq_some.mp hstep
    injection hstep with hstep
    subst hstep
    apply inv_abandon h
  | error sp =>
    injection hstep with hstep
    subst hstep
    apply inv_error h horderly

theorem inv_of_run {es : List Event} (hrun : machine.run machine.init es = some s)
    (horderly : machine.Along Orderly machine.init es) : s.Inv := by
  apply Machine.inv_of_along Inv _ hrun horderly
  . exact Cells.Apart.nil
  . exact fun s e s' h horderly hstep => inv_step h horderly hstep

/-!
### Getting a free slot
-/

theorem getsFree (h : s.Inv) (hlt : s.table.sessions.length < maxSlots) : s.GetsFree := by
  cases hget : s.table.getFreeSlot with
  | none =>
    have hle := getFreeSlot_eq_none_iff.mp hget
    omega
  | some r =>
    obtain ⟨⟨index, table⟩, hindex⟩ := r
    refine ⟨index, table, hindex, hget, ?_⟩
    intro sp hsp
    have hlive : sp.id.index ∈ s.live.map (·.id.index) := List.mem_map_of_mem hsp
    obtain ⟨-, -, hnew, -⟩ | ⟨hfree, -⟩ := (freeSlot_of_getFreeSlot hget).slots
    . dsimp only at hnew
      have hlt := lt_of_live h hsp
      omega
    . rintro rfl
      apply h.not_mem_of_append hlive
      dsimp only at hfree
      rw [hfree]
      exact List.mem_cons_self

theorem not_getsFree (hle : maxSlots ≤ s.table.sessions.length) : ¬s.GetsFree := by
  rintro ⟨index, table, hlt, hget, -⟩
  rw [getFreeSlot_eq_none_iff.mpr hle] at hget
  contradiction

/--
A free slot is found exactly when there is room for another one, or there is none to be found.
-/
theorem getsFree_iff (s : SlotHistory) (es : List Event)
    (hrun : machine.run machine.init es = some s)
    (horderly : machine.Along Orderly machine.init es) :
    (s.SomeFree → s.GetsFree)
      ↔ s.table.sessions.length < maxSlots ∨ s.table.freeSlots = [] := by
  have h := inv_of_run hrun horderly
  constructor
  . intro hgets
    cases hfree : s.table.freeSlots with
    | nil => exact Or.inr rfl
    | cons index freeSlots =>
      left
      apply Nat.lt_of_not_le
      intro hle
      apply not_getsFree hle
      apply hgets
      left
      rw [hfree]
      exact List.cons_ne_nil _ _
  . rintro (hlt | hnil) hsome
    . apply getsFree h hlt
    . obtain hne | hlt := hsome
      . exact absurd hnil hne
      . apply getsFree h hlt

-- Two sessions are made, and the first one fails.
def failing : List Event :=
  [
    .create, .register ⟨0, ⟨1, 0⟩⟩, .create, .register ⟨1, ⟨1, 1⟩⟩, .error ⟨0, ⟨1, 0⟩⟩
  ]

theorem getsFree_iff_failing :
    ∃ s, machine.run machine.init failing = some s ∧ s.table.freeSlots = [0] ∧ s.GetsFree := by
  refine ⟨_, rfl, rfl, ?_⟩
  refine (getsFree_iff _ failing rfl ?_).mpr (Or.inl (by decide)) (Or.inl (by decide))
  unfold failing
  repeat' first
    | exact trivial
    | refine Machine.along_cons trivial rfl ?_
    | refine Machine.along_cons List.mem_cons_self rfl ?_
    | refine Machine.along_cons (List.mem_cons_of_mem _ List.mem_cons_self) rfl ?_

/-!
### The limit
-/

-- Nothing has been closed yet.
structure Grown (n : Nat) (s : SlotHistory) : Prop where
  freeSlots : s.table.freeSlots = []
  sessions : s.table.sessions.length = n
  live : s.live.length = n

theorem grown_create {n : Nat} (h : Grown n s) (hlt : n < maxSlots) : Grown (n + 1) s.create := by
  unfold create
  cases hnew : s.table.newId with
  | none =>
    have hle := newId_eq_none_iff.mp hnew
    rw [h.sessions] at hle
    omega
  | some r =>
    obtain ⟨id, table⟩ := r
    obtain ⟨-, hnil, -, hlength⟩ | ⟨hfree, -⟩ := (freeSlot_of_newId hnew).slots
    . constructor
      . exact hnil
      . dsimp only
        rw [hlength, h.sessions]
      . dsimp only
        rw [List.length_cons, h.live]
    . rw [h.freeSlots] at hfree
      contradiction

theorem exists_grown (n k : Nat) (h : Grown k s) (hle : k + n ≤ maxSlots) :
    ∃ s', machine.run s (List.replicate n .create) = some s' ∧ Grown (k + n) s' := by
  induction n generalizing s k with
  | zero => exact ⟨s, rfl, h⟩
  | succ n ih =>
    have hcreate := grown_create h (by omega)
    obtain ⟨s', hrun, hgrown⟩ := ih (k + 1) hcreate (by omega)
    refine ⟨s', ?_, ?_⟩
    . rw [List.replicate_succ]
      exact hrun
    . rw [Nat.add_assoc, Nat.add_comm 1] at hgrown
      exact hgrown

-- A session reports its error twice, and its slot is listed twice.
def repeating : List Event :=
  [
    .create, .register ⟨0, ⟨1, 0⟩⟩, .error ⟨0, ⟨1, 0⟩⟩, .error ⟨0, ⟨1, 0⟩⟩, .create
  ]

theorem exists_shared :
    ∃ s, machine.run machine.init repeating = some s ∧ s.table.sessions.length = 1 ∧ s.SomeFree
      ∧ ¬s.GetsFree := by
  refine ⟨_, rfl, rfl, Or.inl (by decide), ?_⟩
  rintro ⟨index, table, hlt, hget, hlive⟩
  have hindex := congrArg (Option.map fun r => r.val.1) hget
  injection hindex with hindex
  exact hlive _ List.mem_cons_self hindex

-- As many sessions as there may be are made, and one of them is closed.
theorem exists_refused :
    ∃ s, machine.Reachable s ∧ s.live.length = maxSlots - 1 ∧ s.SomeFree ∧ ¬s.GetsFree := by
  have hinit : Grown 0 machine.init := ⟨rfl, rfl, rfl⟩
  obtain ⟨s, hrun, hgrown⟩ := exists_grown maxSlots 0 hinit (Nat.le_of_eq (Nat.zero_add _))
  rw [Nat.zero_add] at hgrown
  have hne : s.live ≠ [] := by
    intro hnil
    have hlength := hgrown.live
    have hpos : 0 < maxSlots := by decide
    rw [hnil, List.length_nil] at hlength
    omega
  obtain ⟨sp, hsp⟩ := List.exists_mem_of_ne_nil _ hne
  have horderly : machine.Along Orderly machine.init (List.replicate maxSlots .create) := by
    apply Machine.along_of_forall
    intro s e he
    rw [List.eq_of_mem_replicate he]
    trivial
  have hlt := lt_of_live (inv_of_run hrun horderly) hsp
  obtain ⟨hfree, hlength, -⟩ := error_eq hlt
  refine ⟨s.error sp, ⟨List.replicate maxSlots .create ++ [.error sp], ?_⟩, ?_, ?_, ?_⟩
  . rw [Machine.run_append, hrun]
    rfl
  . unfold error
    dsimp only
    rw [List.length_erase_of_mem hsp, hgrown.live]
  . left
    unfold error
    dsimp only
    rw [hfree]
    apply List.append_ne_nil_of_right_ne_nil
    exact List.cons_ne_nil _ _
  . apply not_getsFree
    unfold error
    dsimp only
    rw [hlength]
    exact Nat.le_of_eq hgrown.sessions.symm

theorem exists_not_getsFree :
    (∃ s, machine.Reachable s ∧ s.live.length = maxSlots - 1 ∧ s.SomeFree ∧ ¬s.GetsFree)
      ∧ ∃ s, machine.Reachable s ∧ s.table.sessions.length = 1 ∧ s.SomeFree ∧ ¬s.GetsFree := by
  obtain ⟨s, hrun, hshared⟩ := exists_shared
  exact ⟨exists_refused, s, ⟨repeating, hrun⟩, hshared⟩

end SlotHistory
end Lax
