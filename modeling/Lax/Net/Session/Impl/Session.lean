import Lax.Foundation.Machine
import Lax.Net.Session.Impl.SegmentBuffer

/-!
This module contains a session after its constructor: threads that send and close, and the handlers
of its asynchronous reads and writes. A step is a test of a flag without a lock, a section under
`session_mutex_` or `send_segs_mutex_`, or a call into the socket.
-/

namespace Lax
namespace Session

inductive Pc where
  | idle
  -- `send`
  | sending (data : List UInt8)
  | appending (data : List UInt8)
  -- `request_send`, for `on_send_completed` if `handler`, else for `send`
  | requestSend (handler : Bool)
  | checkSend (handler : Bool)
  | transfer (handler : Bool)
  | startWrite (handler : Bool)
  -- `on_recv_completed`, `ok` if there is no error code, and `request_recv`
  | recvCompleted (ok : Bool)
  | parsing
  | requestRecv
  | checkRecv
  | startRead
  -- `on_send_completed`
  | sendCompleted (ok : Bool)
  | released (ok : Bool)
  -- `close` and `destroy`
  | closing
  | shutting
  | checking
  | destroying
  | notifying
  deriving DecidableEq, Repr

structure State (Tid : Type) where
  isOpen : Bool
  destroyed : Bool
  recving : Bool
  sending : Bool
  sendBuffer : SegmentBuffer
  sendingSegs : List Seg
  -- asynchronous operations that have not completed, a write with what is not on the wire yet
  reading : Nat
  writes : List (List UInt8)
  wire : List UInt8
  -- history: what has been appended, whether the socket has got `sending_segs_`, how often `destroy`
  -- has passed its check and how often it has notified
  appended : List (List UInt8)
  handed : Bool
  passed : Nat
  notified : Nat
  threads : Tid → Pc

inductive Event (Tid : Type) where
  | send (t : Tid) (data : List UInt8)
  | close (t : Tid)
  | readDone (t : Tid) (ok : Bool)
  | writeDone (t : Tid) (i : Nat) (ok : Bool)
  | transmit (i n : Nat)
  -- `ok` is what `protocol::on_recv` returns.
  | next (t : Tid) (ok : Bool)

variable {Tid : Type} [DecidableEq Tid] (length : Nat)

def State.goto (s : State Tid) (t : Tid) (pc : Pc) : State Tid :=
  { s with threads := Function.update s.threads t pc }

def advance (s : State Tid) (t : Tid) (ok : Bool) : Pc → Option (State Tid)
  | .idle => none
  | .sending data => some (s.goto t (if s.isOpen then .appending data else .idle))
  | .appending data =>
    (s.sendBuffer.append length data).map fun b =>
      { s with sendBuffer := b, appended := s.appended ++ [data] }.goto t (.requestSend false)
  | .requestSend handler => some (s.goto t (if s.isOpen then .checkSend handler else .idle))
  | .checkSend handler =>
    if s.sending || s.sendBuffer.size = 0 then
      some (s.goto t .idle)
    else
      some ({ s with sending := true }.goto t (.transfer handler))
  | .transfer handler =>
    let (segs, b) := s.sendBuffer.transfer length
    some ({ s with sendBuffer := b, sendingSegs := segs, handed := false }.goto t (.startWrite handler))
  | .startWrite _ =>
    some ({ s with writes := s.writes ++ [s.sendingSegs.flatten], handed := true }.goto t .idle)
  | .recvCompleted ok => some ({ s with recving := false }.goto t (if ok then .parsing else .closing))
  | .parsing => some (s.goto t (if ok then .requestRecv else .closing))
  | .requestRecv => some (s.goto t (if s.isOpen then .checkRecv else .idle))
  | .checkRecv =>
    if s.recving then some (s.goto t .idle) else some ({ s with recving := true }.goto t .startRead)
  | .startRead => some ({ s with reading := s.reading + 1 }.goto t .idle)
  | .sendCompleted ok => some ({ s with sendingSegs := [] }.goto t (.released ok))
  | .released ok =>
    some ({ s with sending := false }.goto t (if ok then .requestSend true else .closing))
  | .closing => some (s.goto t (if s.destroyed then .idle else .shutting))
  | .shutting => some ({ s with isOpen := false }.goto t .checking)
  | .checking =>
    if s.sending || s.recving then
      some (s.goto t .idle)
    else
      some ({ s with passed := s.passed + 1 }.goto t .destroying)
  | .destroying => some ({ s with destroyed := true }.goto t .notifying)
  | .notifying => some ({ s with notified := s.notified + 1 }.goto t .idle)

def step (s : State Tid) : Event Tid → Option (State Tid)
  | .send t data => if s.threads t = .idle then some (s.goto t (.sending data)) else none
  | .close t => if s.threads t = .idle then some (s.goto t .closing) else none
  | .readDone t ok =>
    if s.threads t = .idle ∧ 0 < s.reading then
      some ({ s with reading := s.reading - 1 }.goto t (.recvCompleted ok))
    else
      none
  | .writeDone t i ok =>
    -- A write that succeeds has written everything.
    if s.threads t = .idle ∧ i < s.writes.length ∧ (ok = true → s.writes[i]? = some []) then
      some ({ s with writes := s.writes.eraseIdx i }.goto t (.sendCompleted ok))
    else
      none
  | .transmit i n =>
    s.writes[i]?.map fun bytes =>
      { s with wire := s.wire ++ bytes.take n, writes := s.writes.set i (bytes.drop n) }
  | .next t ok => advance length s t ok (s.threads t)

def machine : Machine (State Tid) (Event Tid) where
  init := {
    isOpen := true, destroyed := false, recving := true, sending := false
    sendBuffer := SegmentBuffer.empty, sendingSegs := []
    reading := 1, writes := [], wire := []
    appended := [], handed := false, passed := 0, notified := 0
    threads := fun _ => .idle
  }
  step := step length

end Session
end Lax
