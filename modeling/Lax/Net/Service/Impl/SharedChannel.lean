import Lax.Net.BitsProtocol.Impl.Lifetime
import Lax.Net.Service.Impl.SlotTable

/-!
This module contains the sessions of a service, each with its protocol, and the static channel that
all of them post to.
-/

namespace Lax

-- `get_value`: sequence and index lie next to each other.
def SessionId.value (id : SessionId) : UInt32 :=
  id.seq.toUInt32 ||| UInt32.ofNat id.index <<< 16

namespace SharedChannel

open Lifetime

structure State (Body : UInt32 → Type) where
  table : SlotTable
  sessions : SessionId → Option Lifetime.State
  -- the packets in the order in which the channel gets them, with the session that posts them
  posted : List (SessionId × Packet Body)

inductive Event (Body : UInt32 → Type) where
  | newSocket
  | session (id : SessionId) (e : Lifetime.Event Body)
  | error (id : SessionId)

variable {Body : UInt32 → Type} (env : Env Body)
  (archivedId : (cls : UInt32) → Body cls → Option UInt32)

-- `start` is the protocol of a new session.
def step (start : Lifetime.State) (s : State Body) : Event Body → Option (State Body)
  | .newSocket =>
    s.table.newId.map fun (id, table) =>
      { s with table := table, sessions := Function.update s.sessions id (some start) }
  | .session id e =>
    match s.sessions id with
    | none => none
    | some session =>
      (Lifetime.step env archivedId session e).map fun (session, packet) =>
        {
          s with
          sessions := Function.update s.sessions id (some session)
          posted := s.posted ++ packet.toList.map fun p => (id, p)
        }
  | .error id =>
    some { s with table := s.table.error id, sessions := Function.update s.sessions id none }

def machine (start : Lifetime.State) : Machine (State Body) (Event Body) where
  init := ⟨SlotTable.init, fun _ => none, []⟩
  step := step env archivedId start

end SharedChannel
end Lax
