/-!
This module contains the slots of a service: how a new session gets its id, how it is registered,
acquired and removed.
-/

namespace Lax

structure SessionId where
  seq : UInt16
  index : Nat
  deriving DecidableEq, Repr

-- Sequences wrap around, so `obj` tells apart two sessions that have the same id.
structure SessionPtr where
  obj : Nat
  id : SessionId
  deriving DecidableEq, Repr

structure Slot where
  session : Option SessionPtr
  seq : UInt16
  deriving DecidableEq, Repr

-- 0 is not a sequence.
def Slot.nextSeq (slot : Slot) : UInt16 × Slot :=
  let (seq, slot) := (slot.seq, { slot with seq := slot.seq + 1 })
  if seq = 0 then (slot.seq, { slot with seq := slot.seq + 1 }) else (seq, slot)

-- `UINT16_MAX`
def maxSlots : Nat := 65535

-- The bounds say that an index fits into 16 bits and that `free_slots_` has indices of slots only.
structure SlotTable where
  sessions : List Slot
  freeSlots : List Nat
  sessionCount : UInt16
  length_le : sessions.length ≤ maxSlots
  free_lt : ∀ index ∈ freeSlots, index < sessions.length

namespace SlotTable

def init : SlotTable :=
  ⟨[], [], 0, Nat.zero_le _, fun _ h => nomatch h⟩

def modify (table : SlotTable) (index : Nat) (f : Slot → Slot) : SlotTable :=
  {
    table with
    sessions := table.sessions.modify index f
    length_le := by
      rw [List.length_modify]
      exact table.length_le
    free_lt := by
      rw [List.length_modify]
      exact table.free_lt
  }

-- `none` is the exception. Note that a full table throws even if there are free slots.
def getFreeSlot (table : SlotTable) :
    Option { r : Nat × SlotTable // r.1 < r.2.sessions.length } :=
  if hfull : maxSlots ≤ table.sessions.length then
    none
  else
    match hfree : table.freeSlots with
    | [] =>
      some ⟨
        (table.sessions.length, {
          table with
          sessions := table.sessions ++ [⟨none, 0⟩]
          length_le := by
            rw [List.length_append, List.length_singleton]
            omega
          free_lt := by
            rw [hfree]
            exact fun _ h => nomatch h
        }),
        by simp
      ⟩
    | index :: freeSlots =>
      some ⟨
        (index, {
          table with
          freeSlots := freeSlots
          free_lt := fun i hi => table.free_lt i (hfree ▸ List.mem_cons_of_mem index hi)
        }),
        table.free_lt index (hfree ▸ List.mem_cons_self)
      ⟩

-- The first section of `on_new_socket`.
def newId (table : SlotTable) : Option (SessionId × SlotTable) :=
  match table.getFreeSlot with
  | none => none
  | some ⟨(index, table), hlt⟩ =>
    let (seq, slot) := (table.sessions.get ⟨index, hlt⟩).nextSeq
    some (⟨seq, index⟩, table.modify index fun _ => slot)

-- The second section of `on_new_socket`.
def register (table : SlotTable) (sp : SessionPtr) : SlotTable :=
  let table := table.modify sp.id.index fun slot => { slot with session := some sp }
  { table with sessionCount := table.sessionCount + 1 }

-- `none` reads past the end of `sessions_`, `some none` is an empty ref.
def acquire (table : SlotTable) (id : SessionId) : Option (Option SessionPtr) :=
  if id.index > table.sessions.length then
    some none
  else
    table.sessions[id.index]?.map fun slot => slot.session

def error (table : SlotTable) (id : SessionId) : SlotTable :=
  if h : id.index ≥ table.sessions.length then
    table
  else
    let cleared := table.modify id.index fun slot => { slot with session := none }
    {
      cleared with
      freeSlots := cleared.freeSlots ++ [id.index]
      sessionCount := cleared.sessionCount - 1
      free_lt := by
        intro index hindex
        rw [List.mem_append, List.mem_singleton] at hindex
        obtain hindex | hindex := hindex
        . exact cleared.free_lt index hindex
        . rw [hindex]
          unfold cleared modify
          rw [List.length_modify]
          omega
    }

end SlotTable
end Lax
