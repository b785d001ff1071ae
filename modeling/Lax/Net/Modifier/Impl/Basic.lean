import Lax.Foundation.Slice
import Lax.Net.Basic

/-!
This module contains the interface that all modifiers share: what a call of `on_recv` reports and
the update of the length field.
-/

namespace Lax

inductive Event where
  -- `len` bytes at `pos` of the buffer are read or written.
  | access (pos len : Nat)
  -- The size `a - b` is computed.
  | subtract (a b : Nat)
  deriving DecidableEq, Repr

-- What `on_recv` reports: `new_len` or a failure, the buffer and the state of the modifier after the
-- call, and what it did to memory and sizes on the way.
structure Received (σ : Type) where
  rc : Except Failure Nat
  buf : List UInt8
  state : σ
  trace : List Event

namespace Received

variable {σ τ : Type}

def start (buf : List UInt8) (state : σ) (msgLen : Nat) : Received σ :=
  ⟨.ok msgLen, buf, state, []⟩

def map (f : σ → τ) (r : Received σ) : Received τ :=
  ⟨r.rc, r.buf, f r.state, r.trace⟩

def andThen (r : Received σ) (enabled : Bool) (next : List UInt8 → σ → Nat → Received σ) :
    Received σ :=
  match r.rc with
  | .error _ => r
  | .ok msgLen =>
    if enabled then
      let r' := next r.buf r.state msgLen
      { r' with trace := r.trace ++ r'.trace }
    else
      r

end Received

-- All of the upper three bytes get the second byte of the length.
def lengthField (newLen : Nat) : List UInt8 :=
  [
    UInt8.ofNat (newLen &&& 0xFF),
    UInt8.ofNat ((newLen >>> 8) &&& 0xFF),
    UInt8.ofNat ((newLen >>> 8) &&& 0xFF),
    UInt8.ofNat ((newLen >>> 8) &&& 0xFF)
  ]

def updateLengthField (buf : List UInt8) (msgPos newLen : Nat) : List UInt8 :=
  Slice.write buf msgPos (lengthField newLen)

end Lax
