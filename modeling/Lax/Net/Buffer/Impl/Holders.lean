import Lax.Foundation.Machine
import Lax.Net.Buffer.Impl.BufferPool

/-!
This module contains those who take blocks out of the pool and give them back. Nobody gives back what
nobody has.
-/

namespace Lax
namespace BufferPool

-- The pool, and the blocks that somebody has.
structure Holders where
  pool : BufferPool
  held : List Nat

namespace Holders

inductive Event where
  | alloc (requiredSize : Nat)
  | release (addr : Nat)
  deriving DecidableEq, Repr

def step (s : Holders) : Event → Option Holders
  | .alloc requiredSize =>
    if requiredSize > 0 then
      let (addr, pool) := s.pool.alloc requiredSize
      some ⟨pool, addr :: s.held⟩
    else
      none
  | .release addr =>
    if addr ∈ s.held then some ⟨s.pool.release addr, s.held.erase addr⟩ else none

def machine : Machine Holders Event :=
  ⟨⟨BufferPool.init, []⟩, step⟩

def osHeld (s : Holders) : List Nat :=
  s.held.filter fun addr => (s.pool.block addr).isAllocatedFromOs

def heldOf (s : Holders) (i : Nat) : List Nat :=
  s.held.filter fun addr => (s.pool.block addr).pool = some i

def osBytes (s : Holders) : Nat :=
  (s.osHeld.map fun addr => (s.pool.block addr).capacity).sum

end Holders
end BufferPool
end Lax
