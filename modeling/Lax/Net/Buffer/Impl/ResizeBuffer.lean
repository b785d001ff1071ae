import Lax.Foundation.Machine
import Lax.Net.Buffer.Impl.BufferPool

/-!
This module contains the buffer that grows while it is written. An operation that accesses memory
outside of a block is `none`.
-/

namespace Lax

structure ResizeBuffer where
  initialSize : Nat := 8 * 1024
  buf : Option Nat := none
  pos : Nat := 0
  deriving DecidableEq, Repr

namespace ResizeBuffer

def size (b : ResizeBuffer) : Nat :=
  b.pos

def capacity (pool : BufferPool) (b : ResizeBuffer) : Nat :=
  match b.buf with
  | none => 0
  | some addr => (pool.block addr).capacity

-- The bytes from `data()` up to `size()`.
def data (pool : BufferPool) (b : ResizeBuffer) : List (Option UInt8) :=
  match b.buf with
  | none => []
  | some addr => (pool.block addr).data.take b.pos

-- `reserve` of a buffer that has the block at `addr` already
def reserveMore (pool : BufferPool) (b : ResizeBuffer) (addr len : Nat) :
    Option (BufferPool × ResizeBuffer) :=
  if (pool.block addr).capacity < b.pos + len then
    let (nbuf, pool) := pool.alloc (b.pos + len)
    if b.pos ≤ (pool.block addr).capacity ∧ b.pos ≤ (pool.block nbuf).capacity then
      let pool := pool.write nbuf 0 (Slice.read (pool.block addr).data 0 b.pos)
      some (pool.release addr, { b with buf := some nbuf })
    else
      none
  else
    some (pool, b)

def reserve (pool : BufferPool) (b : ResizeBuffer) (len : Nat) :
    Option (BufferPool × ResizeBuffer) :=
  match b.buf with
  | none =>
    let (addr, pool) := pool.alloc (max len b.initialSize)
    some (pool, { b with buf := some addr })
  | some addr => reserveMore pool b addr len

def append (pool : BufferPool) (b : ResizeBuffer) (p : List UInt8) :
    Option (BufferPool × ResizeBuffer) := do
  let (pool, b) ← reserve pool b p.length
  let addr ← b.buf
  if b.pos + p.length ≤ (pool.block addr).capacity then
    return (pool.write addr b.pos (p.map some), { b with pos := b.pos + p.length })
  else
    none

def resize (pool : BufferPool) (b : ResizeBuffer) (newSize : Nat) :
    Option (BufferPool × ResizeBuffer) :=
  if newSize ≤ b.capacity pool then
    some (pool, { b with pos := newSize })
  else do
    let (pool, b) ← reserve pool b (newSize - b.capacity pool)
    return (pool, { b with pos := newSize })

def rewind (b : ResizeBuffer) (pos : Nat) : ResizeBuffer :=
  if pos ≥ b.size then b else { b with pos := pos }

def popFront (pool : BufferPool) (b : ResizeBuffer) (count : Nat) :
    Option (BufferPool × ResizeBuffer) :=
  match b.buf with
  | none => some (pool, b)
  | some addr =>
    if count = 0 then
      some (pool, b)
    else
      let count := min count b.size
      let len := b.pos - count
      if len = 0 ∨ b.pos ≤ (pool.block addr).capacity then
        let pool := pool.write addr 0 (Slice.read (pool.block addr).data count len)
        some (pool, { b with pos := len })
      else
        none

inductive Call where
  | append (p : List UInt8)
  | rewind (pos : Nat)
  | popFront (count : Nat)
  | resize (newSize : Nat)
  -- Another buffer takes a block, writes to one that it has, or gives it back.
  | otherTakes (size : Nat)
  | otherWrites (i pos : Nat) (bytes : List UInt8)
  | otherGives (i : Nat)
  deriving DecidableEq, Repr

-- A buffer and what it shares with the others: the pool is a static member.
structure Use where
  pool : BufferPool
  buffer : ResizeBuffer
  others : List Nat

namespace Use

def init (initialSize : Nat) : Use :=
  ⟨BufferPool.init, { initialSize }, []⟩

def put (u : Use) (result : BufferPool × ResizeBuffer) : Use :=
  { u with pool := result.1, buffer := result.2 }

def step (u : Use) : Call → Option Use
  | .append p => (u.buffer.append u.pool p).map u.put
  | .rewind pos => some { u with buffer := u.buffer.rewind pos }
  | .popFront count => (u.buffer.popFront u.pool count).map u.put
  | .resize newSize => (u.buffer.resize u.pool newSize).map u.put
  | .otherTakes size =>
    let (addr, pool) := u.pool.alloc size
    some { u with pool, others := u.others ++ [addr] }
  | .otherWrites i pos bytes =>
    match u.others[i]? with
    | some addr =>
      if pos + bytes.length ≤ (u.pool.block addr).capacity then
        some { u with pool := u.pool.write addr pos (bytes.map some) }
      else
        some u
    | none => some u
  | .otherGives i =>
    match u.others[i]? with
    | some addr => some { u with pool := u.pool.release addr, others := u.others.eraseIdx i }
    | none => some u

def machine (initialSize : Nat) : Machine Use Call where
  init := init initialSize
  step := step

end Use
end ResizeBuffer
end Lax
