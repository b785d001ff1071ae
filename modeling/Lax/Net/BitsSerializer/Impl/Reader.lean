import Lax.Foundation.Input
import Lax.Foundation.Slice

/-!
This module contains the side of the serializer that reads: an adapter over a part of a buffer. There
is no member for its error, it is how far `posIt` is behind `endIt`.
-/

namespace Lax
namespace BitsSerializer

-- `NoError`, which is 0, is no error here.
inductive ReaderError where
  | readingError
  | dataOverflow
  | invalidData
  | invalidPointer
  deriving DecidableEq, Repr

namespace ReaderError

def code : ReaderError → Nat
  | readingError => 1
  | dataOverflow => 2
  | invalidData => 3
  | invalidPointer => 4

-- `static_cast<ReaderError>`, of a number that is the code of one
def ofCode : Nat → ReaderError
  | 1 => readingError
  | 2 => dataOverflow
  | 3 => invalidData
  | _ => invalidPointer

end ReaderError

-- The iterators are offsets into the buffer.
structure Reader where
  buf : List UInt8
  posIt : Nat
  endIt : Nat
  deriving DecidableEq, Repr

namespace Reader

-- `InputAdapter{ iter, len }`
def ctor (buf : List UInt8) (iter len : Nat) : Reader :=
  ⟨buf, iter, iter + len⟩

def error (r : Reader) : Option ReaderError :=
  if r.endIt < r.posIt then some (.ofCode (r.posIt - r.endIt)) else none

def setError (r : Reader) (error : ReaderError) : Reader :=
  if r.error = none then { r with endIt := r.posIt, posIt := r.posIt + error.code } else r

-- Everything is set to zeros if the bytes do not suffice.
def read (r : Reader) (size : Nat) : List UInt8 × Reader :=
  if r.posIt + size ≤ r.endIt then
    (Slice.read r.buf r.posIt size, { r with posIt := r.posIt + size })
  else
    (List.replicate size 0, r.setError .dataOverflow)

def isCompletedSuccessfully (r : Reader) : Bool :=
  r.posIt == r.endIt

variable {α : Type}

def run : Input ReaderError α → Reader → α × Reader
  | .ret a, r => (a, r)
  | .read n next, r =>
    let (bytes, r) := r.read n
    run (next bytes) r
  | .fail e next, r => run next (r.setError e)
  | .resize _ next, r => run next r

-- For how many elements it makes room on the way.
def resized : Input ReaderError α → Reader → Nat
  | .ret _, _ => 0
  | .read n next, r =>
    let (bytes, r) := r.read n
    resized (next bytes) r
  | .fail e next, r => resized next (r.setError e)
  | .resize n next, r => n + resized next r

end Reader

end BitsSerializer
end Lax
