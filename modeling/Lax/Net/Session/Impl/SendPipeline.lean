import Lax.Foundation.Machine
import Lax.Net.Session.Impl.SegmentBuffer

/-!
This module contains how a session sends, statement by statement: a step is a section under
`session_mutex_` or `send_segs_mutex_`, or one statement between two of them. A `VERIFY` that does
not hold has no effect here, `Verified` says that it does.
-/

namespace Lax
namespace SendPipeline

inductive Pc where
  | idle
  -- `send`
  | sending (data : List UInt8)
  | appending (data : List UInt8)
  -- `request_send`
  | requestSend
  | checkSend
  | transfer
  | verifyBuffer
  | verifySegs
  | resetSize
  | pushBuf (i : Nat)
  | addSize (i : Nat)
  | verifyBufs
  | verifySize
  | startWrite
  -- `on_send_completed`, `ok` if there is no error code
  | sendCompleted (ok : Bool) (len : Nat)
  | released (ok : Bool)
  -- `error`
  | closing
  deriving DecidableEq, Repr

structure State (Tid : Type) where
  isOpen : Bool
  sending : Bool
  sendBuffer : SegmentBuffer
  sendingSegs : List Seg
  sendingBufs : List Seg
  sendRequestSize : Nat
  -- how much each write that has not completed is about
  writes : List Nat
  -- history: what has been appended since the last transfer
  late : List (List UInt8)
  threads : Tid → Pc

inductive Event (Tid : Type) where
  | send (t : Tid) (data : List UInt8)
  | writeDone (t : Tid) (i : Nat) (ok : Bool) (len : Nat)
  | next (t : Tid)
  -- Somebody else closes the socket.
  | shut

variable {Tid : Type} [DecidableEq Tid] (length : Nat)

def State.goto (s : State Tid) (t : Tid) (pc : Pc) : State Tid :=
  { s with threads := Function.update s.threads t pc }

def advance (s : State Tid) (t : Tid) : Pc → Option (State Tid)
  | .idle => none
  | .sending data => some (s.goto t (if s.isOpen then .appending data else .idle))
  | .appending data =>
    (s.sendBuffer.append length data).map fun b =>
      { s with sendBuffer := b, late := s.late ++ [data] }.goto t .requestSend
  | .requestSend => some (s.goto t (if s.isOpen then .checkSend else .idle))
  | .checkSend =>
    if s.sending || s.sendBuffer.size = 0 then
      some (s.goto t .idle)
    else
      some ({ s with sending := true }.goto t .transfer)
  | .transfer =>
    let (segs, b) := s.sendBuffer.transfer length
    let s := { s with sendBuffer := b, sendingSegs := segs, sendingBufs := [], late := [] }
    some (s.goto t .verifyBuffer)
  | .verifyBuffer => some (s.goto t .verifySegs)
  | .verifySegs => some (s.goto t .resetSize)
  | .resetSize => some ({ s with sendRequestSize := 0 }.goto t (.pushBuf 0))
  | .pushBuf i =>
    match s.sendingSegs[i]? with
    | none => some (s.goto t .verifyBufs)
    | some seg => some ({ s with sendingBufs := s.sendingBufs ++ [seg] }.goto t (.addSize i))
  | .addSize i =>
    s.sendingSegs[i]?.map fun seg =>
      { s with sendRequestSize := s.sendRequestSize + seg.length }.goto t (.pushBuf (i + 1))
  | .verifyBufs => some (s.goto t .verifySize)
  | .verifySize => some (s.goto t .startWrite)
  | .startWrite =>
    some ({ s with writes := s.writes ++ [s.sendingBufs.flatten.length] }.goto t .idle)
  | .sendCompleted ok _ =>
    let s := { s with sendingSegs := [], sendingBufs := [], sendRequestSize := 0 }
    some (s.goto t (.released ok))
  | .released ok =>
    some ({ s with sending := false }.goto t (if ok then .requestSend else .closing))
  | .closing => some ({ s with isOpen := false }.goto t .idle)

def step (s : State Tid) : Event Tid → Option (State Tid)
  | .send t data => if s.threads t = .idle then some (s.goto t (.sending data)) else none
  | .writeDone t i ok len =>
    -- A write that succeeds has written everything.
    if s.threads t = .idle ∧ i < s.writes.length ∧ (ok = true → s.writes[i]? = some len) then
      some ({ s with writes := s.writes.eraseIdx i }.goto t (.sendCompleted ok len))
    else
      none
  | .next t => advance length s t (s.threads t)
  | .shut => some { s with isOpen := false }

def machine : Machine (State Tid) (Event Tid) where
  init := {
    isOpen := true, sending := false
    sendBuffer := SegmentBuffer.empty, sendingSegs := [], sendingBufs := [], sendRequestSize := 0
    writes := [], late := []
    threads := fun _ => .idle
  }
  step := step length

-- What is verified at a place.
def Verified (s : State Tid) : Pc → Prop
  | .transfer => 0 < s.sendBuffer.size ∧ s.sendingSegs = [] ∧ s.sendingBufs = []
  | .verifyBuffer => s.sendBuffer.size = 0
  | .verifySegs => s.sendingSegs ≠ []
  | .verifyBufs => s.sendingBufs ≠ []
  | .verifySize => 0 < s.sendRequestSize
  | .sendCompleted ok len => s.sendingSegs ≠ [] ∧ (ok = true → s.sendRequestSize = len)
  | .released _ => s.sending = true
  | _ => True

-- Whoever takes a step verifies what is to be verified there.
def Verifies (s : State Tid) (e : Event Tid) : Prop :=
  ∀ t, e = .next t → Verified s (s.threads t)

end SendPipeline
end Lax
