import Lax.Foundation.Machine
import Lax.Net.Service.Impl.SlotTable

/-!
This module contains the slots of a service over the life of its sessions. Each step is a section under
the mutex, so that sessions are made, registered and closed in any order.
-/

namespace Lax

structure SlotHistory where
  table : SlotTable
  nextObj : Nat
  -- have their ids and are not in their slots yet
  pending : List SessionPtr
  -- have their ids and have not been closed
  live : List SessionPtr

namespace SlotHistory

inductive Event where
  -- the first section of `on_new_socket`
  | create
  -- the second one
  | register (sp : SessionPtr)
  -- The constructor of the session throws between the two.
  | abandon (sp : SessionPtr)
  -- `error(id)`: nothing checks who reports an error, and how often.
  | error (sp : SessionPtr)
  deriving DecidableEq, Repr

def create (s : SlotHistory) : SlotHistory :=
  match s.table.newId with
  | none => s
  | some (id, table) =>
    let sp := ⟨s.nextObj, id⟩
    {
      table := table
      nextObj := s.nextObj + 1
      pending := sp :: s.pending
      live := sp :: s.live
    }

def register (s : SlotHistory) (sp : SessionPtr) : SlotHistory :=
  { s with table := s.table.register sp, pending := s.pending.erase sp }

def abandon (s : SlotHistory) (sp : SessionPtr) : SlotHistory :=
  { s with pending := s.pending.erase sp, live := s.live.erase sp }

def error (s : SlotHistory) (sp : SessionPtr) : SlotHistory :=
  { s with table := s.table.error sp.id, live := s.live.erase sp }

def step (s : SlotHistory) : Event → Option SlotHistory
  | .create => some s.create
  | .register sp => if sp ∈ s.pending then some (s.register sp) else none
  | .abandon sp => if sp ∈ s.pending then some (s.abandon sp) else none
  | .error sp => some (s.error sp)

def machine : Machine SlotHistory Event where
  init := ⟨SlotTable.init, 0, [], []⟩
  step := step

-- A session reports an error once, before or after it is registered.
def Orderly (s : SlotHistory) : Event → Prop
  | .error sp => sp ∈ s.live
  | _ => True

-- There is a slot that nobody has or room for another one.
def SomeFree (s : SlotHistory) : Prop :=
  s.table.freeSlots ≠ [] ∨ s.table.sessions.length < maxSlots

-- `get_free_slot` does not throw, and what it returns is the slot of nobody who lives.
def GetsFree (s : SlotHistory) : Prop :=
  ∃ index table, ∃ hlt : index < table.sessions.length,
    s.table.getFreeSlot = some ⟨(index, table), hlt⟩ ∧ ∀ sp ∈ s.live, sp.id.index ≠ index

end SlotHistory
end Lax
