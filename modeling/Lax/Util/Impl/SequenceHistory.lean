import Mathlib.Data.List.Dedup
import Lax.Foundation.Machine
import Lax.Util.Impl.Sequence

/-!
This module contains a pool of ids over the life of those who hold them. Only an id that is held is
released, once each.
-/

namespace Lax

structure SequenceHistory where
  seq : Sequence
  held : List Nat
  -- history: every id that `next` has returned, in this order
  returned : List Nat
  deriving DecidableEq, Repr

namespace SequenceHistory

inductive Event where
  | next
  | release (id : Nat)
  deriving DecidableEq, Repr

-- Nothing is left of a `next` that throws: all that it has done before is to fill up a queue that
-- stays empty.
def next (s : SequenceHistory) : SequenceHistory :=
  match s.seq.next with
  | none => s
  | some (id, seq) => ⟨seq, id :: s.held, s.returned ++ [id]⟩

def release (s : SequenceHistory) (id : Nat) : SequenceHistory :=
  { s with seq := s.seq.release id, held := s.held.erase id }

def step (s : SequenceHistory) : Event → Option SequenceHistory
  | .next => some s.next
  | .release id => if id ∈ s.held then some (s.release id) else none

def machine (beginSeq endSeq reserve : Nat) : Machine SequenceHistory Event where
  init := ⟨Sequence.ctor beginSeq endSeq reserve, [], []⟩
  step := step

-- What has been returned since `s`, other than `id`.
def others (s' s : SequenceHistory) (id : Nat) : List Nat :=
  ((s'.returned.drop s.returned.length).filter (· ≠ id)).dedup

end SequenceHistory
end Lax
