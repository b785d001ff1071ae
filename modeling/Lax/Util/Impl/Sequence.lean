/-!
This module contains the pool of ids that subscriptions and sessions take their keys from.
-/

namespace Lax

structure Sequence where
  beginSeq : Nat
  endSeq : Nat
  current : Nat
  reserve : Nat
  seqs : List Nat
  deriving DecidableEq, Repr

namespace Sequence

def acquire (q : Sequence) : Nat → Sequence
  | 0 => q
  | count + 1 =>
    let q :=
      if q.current < q.endSeq then
        { q with seqs := q.seqs ++ [q.current], current := q.current + 1 }
      else
        q
    q.acquire count

def ctor (beginSeq endSeq reserve : Nat) : Sequence :=
  let reserve := min (endSeq - beginSeq) reserve
  acquire ⟨beginSeq, endSeq, beginSeq, reserve, []⟩ reserve

-- `none` is the exception.
def next (q : Sequence) : Option (Nat × Sequence) :=
  let q := if q.seqs.length < q.reserve then q.acquire (q.reserve - q.seqs.length) else q
  match q.seqs with
  | value :: seqs => some (value, { q with seqs := seqs })
  | [] => if q.current = q.endSeq then none else some (q.current, { q with current := q.current + 1 })

def release (q : Sequence) (seq : Nat) : Sequence :=
  if q.beginSeq ≤ seq ∧ seq < q.endSeq then { q with seqs := q.seqs ++ [seq] } else q

end Sequence
end Lax
