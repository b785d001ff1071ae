import Lax.Foundation.Machine
import Lax.Net.Service.Impl.SlotTable

/-!
This module contains the handlers of `service_impl` and the order in which they take and release its
mutex. Each thread runs one handler at a time and takes one step at a time.
-/

namespace Lax
namespace Service

structure Handler where
  -- `on_accepted` or `on_connected`
  accepted : Bool
  key : Nat
  deriving DecidableEq, Repr

-- What runs under a `std::unique_lock`.
inductive Op where
  | newSocket (h : Handler)
  | listen
  | connect
  | error (id : SessionId)
  deriving DecidableEq, Repr

inductive Pc where
  | idle
  | waiting (op : Op)
  | locked (op : Op)
  -- `on_new_socket`, still under the lock of its caller
  | reserved (h : Handler) (id : SessionId)
  -- The constructor of the session runs without the lock; `sys_session_ready` is posted in it, and
  -- in `ready` its subscribers are called.
  | constructing (h : Handler) (sp : SessionPtr)
  | ready (h : Handler) (sp : SessionPtr)
  | constructed (h : Handler) (sp : SessionPtr)
  | relocked (h : Handler) (sp : SessionPtr)
  | registered (h : Handler)
  | returned (h : Handler)
  -- The destructor of the `std::unique_lock` comes next. `held` is whether the thread still holds the
  -- mutex; the `std::unique_lock` believes so in any case.
  | leaving (held : Bool)
  -- `acquire` has a `std::shared_lock`.
  | acquiring (id : SessionId)
  | reading (id : SessionId)
  deriving DecidableEq, Repr

structure State (Tid : Type) where
  table : SlotTable
  acceptors : List Nat
  connectors : List Nat
  acceptorCount : UInt16
  connectorCount : UInt16
  idGen : Nat
  nextObj : Nat
  owner : Option Tid
  readers : List Tid
  threads : Tid → Pc

inductive Event (Tid : Type) where
  | call (t : Tid) (op : Op)
  | acquire (t : Tid) (id : SessionId)
  -- `ok` is whether the acceptor or the connector has been started or the constructor has not thrown.
  | next (t : Tid) (ok : Bool)

-- Keys are never released, and there are none from `MAXUINT16` on.
def nextKey (idGen : Nat) : Option (Nat × Nat) :=
  if idGen < 65535 then some (idGen, idGen + 1) else none

variable {Tid : Type} [DecidableEq Tid]

namespace State

def goto (s : State Tid) (t : Tid) (pc : Pc) : State Tid :=
  { s with threads := Function.update s.threads t pc }

omit [DecidableEq Tid] in
def keys (s : State Tid) (h : Handler) : List Nat :=
  if h.accepted then s.acceptors else s.connectors

-- Unlocking a mutex that another thread holds takes it away from that thread.
def unlock (s : State Tid) (t : Tid) (pc : Pc) : State Tid :=
  { s.goto t pc with owner := none }

def lock (s : State Tid) (t : Tid) (pc : Pc) : Option (State Tid) :=
  if s.owner = none ∧ s.readers = [] then some { s.goto t pc with owner := some t } else none

def listen (s : State Tid) (t : Tid) (ok : Bool) : State Tid :=
  match nextKey s.idGen with
  | none => s.goto t (.leaving true)
  | some (id, idGen) =>
    let s := { s.goto t (.leaving true) with idGen := idGen }
    if ok then
      { s with acceptors := s.acceptors ++ [id], acceptorCount := s.acceptorCount + 1 }
    else
      s

def connect (s : State Tid) (t : Tid) (ok : Bool) : State Tid :=
  match nextKey s.idGen with
  | none => s.goto t (.leaving true)
  | some (id, idGen) =>
    let s := { s.goto t (.leaving true) with idGen := idGen }
    if ok then
      { s with connectors := s.connectors ++ [id], connectorCount := s.connectorCount + 1 }
    else
      s

def newSocket (s : State Tid) (t : Tid) (h : Handler) : State Tid :=
  if h.key ∈ s.keys h then
    match s.table.newId with
    | none => s.goto t (.leaving true)
    | some (id, table) => { s.goto t (.reserved h id) with table := table }
  else
    s.goto t (.leaving true)

def body (s : State Tid) (t : Tid) (ok : Bool) : Op → State Tid
  | .newSocket h => s.newSocket t h
  | .listen => s.listen t ok
  | .connect => s.connect t ok
  | .error id => { s.goto t (.leaving true) with table := s.table.error id }

-- `on_connected` forgets its connector after `on_new_socket`.
def forget (s : State Tid) (t : Tid) (h : Handler) : State Tid :=
  let s := s.goto t (.leaving false)
  if h.accepted then
    s
  else
    { s with connectors := s.connectors.erase h.key, connectorCount := s.connectorCount - 1 }

end State

def advance (s : State Tid) (t : Tid) (ok : Bool) : Pc → Option (State Tid)
  | .idle => none
  | .waiting op => s.lock t (.locked op)
  | .locked op => some (s.body t ok op)
  | .reserved h id =>
    some { s.unlock t (.constructing h ⟨s.nextObj, id⟩) with nextObj := s.nextObj + 1 }
  | .constructing h sp => some (s.goto t (if ok then .ready h sp else .leaving false))
  | .ready h sp => some (s.goto t (if ok then .constructed h sp else .leaving false))
  | .constructed h sp => s.lock t (.relocked h sp)
  | .relocked h sp => some { s.goto t (.registered h) with table := s.table.register sp }
  | .registered h => some (s.unlock t (.returned h))
  | .returned h => some (s.forget t h)
  | .leaving _ => some (s.unlock t .idle)
  | .acquiring id =>
    if s.owner = none then some { s.goto t (.reading id) with readers := t :: s.readers } else none
  | .reading _ => some { s.goto t .idle with readers := s.readers.erase t }

def step (s : State Tid) : Event Tid → Option (State Tid)
  | .call t op => if s.threads t = .idle then some (s.goto t (.waiting op)) else none
  | .acquire t id => if s.threads t = .idle then some (s.goto t (.acquiring id)) else none
  | .next t ok => advance s t ok (s.threads t)

def machine : Machine (State Tid) (Event Tid) where
  init := ⟨SlotTable.init, [], [], 0, 0, 1, 0, none, [], fun _ => .idle⟩
  step := step

end Service
end Lax
