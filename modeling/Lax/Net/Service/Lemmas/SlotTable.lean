import Lax.Net.Service.Impl.SlotTable

/-!
This module contains what the operations on a slot table do to the sessions in its slots.
-/

namespace Lax

theorem Slot.session_nextSeq (slot : Slot) : slot.nextSeq.2.session = slot.session := by
  unfold Slot.nextSeq
  dsimp only
  split <;> rfl

namespace SlotTable

variable (table : SlotTable)

def held (index : Nat) : Option SessionPtr :=
  table.sessions[index]?.bind Slot.session

def heldCount : Nat :=
  table.sessions.countP fun slot => slot.session.isSome

theorem held_eq_none_of_le {index : Nat} (h : table.sessions.length ≤ index) :
    table.held index = none := by
  unfold held
  rw [List.getElem?_eq_none h]
  rfl

theorem lt_of_held {index : Nat} {sp : SessionPtr} (h : table.held index = some sp) :
    index < table.sessions.length := by
  refine Nat.lt_of_not_le fun hle => ?_
  rw [held_eq_none_of_le table hle] at h
  cases h

theorem heldCount_le : table.heldCount ≤ maxSlots :=
  Nat.le_trans List.countP_le_length table.length_le

/-!
### Changing a slot
-/

theorem length_modify (index : Nat) (f : Slot → Slot) :
    (table.modify index f).sessions.length = table.sessions.length :=
  List.length_modify f table.sessions index

theorem held_modify_of_ne {index i : Nat} (hne : i ≠ index) (f : Slot → Slot) :
    (table.modify index f).held i = table.held i := by
  unfold held modify
  dsimp only
  rw [List.getElem?_modify_ne f _ hne.symm]

theorem held_modify {index : Nat} (hlt : index < table.sessions.length) (f : Slot → Slot) :
    (table.modify index f).held index = (f (table.sessions.get ⟨index, hlt⟩)).session := by
  unfold held modify
  dsimp only
  rw [List.getElem?_modify_eq, List.getElem?_eq_getElem hlt]
  rfl

theorem held_eq {index : Nat} (hlt : index < table.sessions.length) :
    table.held index = (table.sessions.get ⟨index, hlt⟩).session := by
  unfold held
  rw [List.getElem?_eq_getElem hlt]
  rfl

theorem heldCount_modify {index : Nat} (hlt : index < table.sessions.length) (f : Slot → Slot) :
    (table.modify index f).heldCount + (if (table.held index).isSome then 1 else 0)
      =
    table.heldCount + (if ((table.modify index f).held index).isSome then 1 else 0) := by
  have hsplit : table.sessions
      = table.sessions.take index ++ table.sessions.get ⟨index, hlt⟩ :: table.sessions.drop (index + 1) := by
    rw [List.get_eq_getElem, List.getElem_cons_drop, List.take_append_drop]
  have hcount := congrArg (List.countP fun slot => slot.session.isSome) hsplit
  rw [held_modify table hlt, held_eq table hlt]
  unfold heldCount modify
  dsimp only
  rw [List.modify_eq_take_cons_drop hlt, hcount, List.countP_append, List.countP_append,
    List.countP_cons, List.countP_cons]
  dsimp only [List.get_eq_getElem]
  omega

/-!
### The operations
-/

variable {table} {table' : SlotTable} {id : SessionId}

structure FreeSlot (table : SlotTable) (index : Nat) (table' : SlotTable) : Prop where
  held : ∀ index, table'.held index = table.held index
  heldCount : table'.heldCount = table.heldCount
  sessionCount : table'.sessionCount = table.sessionCount
  slots :
    table.freeSlots = [] ∧ table'.freeSlots = [] ∧ index = table.sessions.length
        ∧ table'.sessions.length = table.sessions.length + 1
      ∨ table.freeSlots = index :: table'.freeSlots
        ∧ table'.sessions.length = table.sessions.length

theorem getFreeSlot_eq_none_iff :
    table.getFreeSlot = none ↔ maxSlots ≤ table.sessions.length := by
  unfold getFreeSlot
  split
  . exact iff_of_true rfl ‹_›
  . refine iff_of_false ?_ ‹_›
    split <;> exact fun h => nomatch h

theorem newId_eq_none_iff : table.newId = none ↔ maxSlots ≤ table.sessions.length := by
  rw [← getFreeSlot_eq_none_iff]
  unfold newId
  cases table.getFreeSlot with
  | none => exact iff_of_true rfl rfl
  | some r => exact iff_of_false (fun h => nomatch h) (fun h => nomatch h)

theorem freeSlot_of_getFreeSlot {r : { r : Nat × SlotTable // r.1 < r.2.sessions.length }}
    (h : table.getFreeSlot = some r) : FreeSlot table r.1.1 r.1.2 := by
  unfold getFreeSlot at h
  split at h
  . cases h
  . split at h
    . injection h with h
      subst h
      refine ⟨?_, ?_, rfl, Or.inl ⟨‹_›, ‹_›, rfl, List.length_append⟩⟩
      . intro index
        unfold held
        dsimp only
        rw [List.getElem?_append]
        split
        . rfl
        . have hnone : table.sessions[index]? = none :=
            List.getElem?_eq_none (Nat.le_of_not_lt ‹_›)
          rw [hnone]
          cases index - table.sessions.length <;> rfl
      . unfold heldCount
        dsimp only
        rw [List.countP_append]
        rfl
    . injection h with h
      subst h
      exact ⟨fun _ => rfl, rfl, rfl, Or.inr ⟨‹_›, rfl⟩⟩

-- `on_new_socket` changes nothing but the sequence of the slot.
theorem FreeSlot.modify {index : Nat} (h : FreeSlot table index table') {f : Slot → Slot}
    (hlt : index < table'.sessions.length)
    (hf : (f (table'.sessions.get ⟨index, hlt⟩)).session
      = (table'.sessions.get ⟨index, hlt⟩).session) :
    FreeSlot table index (table'.modify index f) := by
  have hkeep : (table'.modify index f).held index = table'.held index := by
    rw [held_modify table' hlt, hf, held_eq table' hlt]
  have hcount := heldCount_modify table' hlt f
  rw [hkeep] at hcount
  refine ⟨?_, ?_, h.sessionCount, ?_⟩
  . intro i
    by_cases hne : i = index
    . rw [hne, hkeep, h.held]
    . rw [held_modify_of_ne table' hne, h.held]
  . rw [Nat.add_right_cancel hcount, h.heldCount]
  . rw [length_modify]
    exact h.slots

theorem freeSlot_of_newId (h : table.newId = some (id, table')) :
    FreeSlot table id.index table' := by
  unfold newId at h
  split at h
  . cases h
  . rename_i index mid hlt hmid
    have hfree := freeSlot_of_getFreeSlot hmid
    injection h with h
    injection h with hid htable
    subst hid htable
    exact hfree.modify hlt (Slot.session_nextSeq _)

theorem register_eq {sp : SessionPtr} (hlt : sp.id.index < table.sessions.length)
    (hnone : table.held sp.id.index = none) :
    (table.register sp).held sp.id.index = some sp
      ∧ (table.register sp).heldCount = table.heldCount + 1 := by
  have hheld : (table.register sp).held sp.id.index = some sp := held_modify table hlt _
  have hcount := heldCount_modify table hlt fun slot => { slot with session := some sp }
  refine ⟨hheld, ?_⟩
  rw [held_modify table hlt, hnone] at hcount
  exact hcount

theorem held_register_of_ne {sp : SessionPtr} {index : Nat} (hne : index ≠ sp.id.index) :
    (table.register sp).held index = table.held index :=
  held_modify_of_ne table hne _

theorem error_of_le (h : table.sessions.length ≤ id.index) : table.error id = table := by
  unfold error
  rw [dif_pos h]

theorem length_error : (table.error id).sessions.length = table.sessions.length := by
  unfold error
  split
  . rfl
  . exact length_modify table _ _

theorem error_eq (hlt : id.index < table.sessions.length) :
    (table.error id).freeSlots = table.freeSlots ++ [id.index]
      ∧ (table.error id).sessions.length = table.sessions.length
      ∧ (table.error id).sessionCount = table.sessionCount - 1
      ∧ (table.error id).held id.index = none
      ∧ (∀ index, index ≠ id.index → (table.error id).held index = table.held index)
      ∧ (table.error id).heldCount + (if (table.held id.index).isSome then 1 else 0)
        = table.heldCount := by
  have hcount := heldCount_modify table hlt fun slot => { slot with session := none }
  have hnone := held_modify table hlt fun slot => { slot with session := none }
  rw [hnone] at hcount
  unfold error
  rw [dif_neg (Nat.not_le_of_lt hlt)]
  refine ⟨rfl, length_modify table _ _, rfl, hnone, ?_, hcount⟩
  exact fun index hne => held_modify_of_ne table hne _

end SlotTable
end Lax
