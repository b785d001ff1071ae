import Mathlib.Logic.Function.Basic
import Lax.Foundation.Machine
import Lax.Net.Session.Impl.SegmentBuffer

/-!
This module contains the segment buffer as it is in memory. All of the buffers of one length take
their segments from one pool, and a segment that has been handed to the socket goes back to it.
-/

namespace Lax

structure SegmentPool where
  seg : Nat → Seg
  -- The addresses that the allocator has handed out.
  allocated : Nat
  queue : List Nat

namespace SegmentPool

def empty : SegmentPool :=
  ⟨fun _ => [], 0, []⟩

def write (pool : SegmentPool) (addr : Nat) (seg : Seg) : SegmentPool :=
  { pool with seg := Function.update pool.seg addr seg }

def alloc (pool : SegmentPool) : Nat × SegmentPool :=
  match pool.queue with
  | addr :: queue => (addr, { pool with queue := queue })
  | [] => (pool.allocated, { pool with allocated := pool.allocated + 1 })

-- The constructor of a segment leaves its bytes as they are and sets its size to zero.
def constructRaw (pool : SegmentPool) : Nat × SegmentPool :=
  let (addr, pool) := pool.alloc
  (addr, pool.write addr [])

def destroy (pool : SegmentPool) (addr : Nat) : SegmentPool :=
  { pool with queue := pool.queue ++ [addr] }

end SegmentPool

structure PooledBuffer where
  segs : List Nat
  pos : Nat
  deriving DecidableEq, Repr

namespace PooledBuffer

variable (length : Nat)

def empty : PooledBuffer :=
  ⟨[], 0⟩

def size (b : PooledBuffer) : Nat :=
  b.pos

def getWriteSeg (b : PooledBuffer) : Nat :=
  b.pos / length

def getDataSeg (b : PooledBuffer) : Nat :=
  let pos := if b.pos > 0 then b.pos - 1 else 0
  pos / length

def constructSegs : Nat → SegmentPool → PooledBuffer → SegmentPool × PooledBuffer
  | 0, pool, b => (pool, b)
  | n + 1, pool, b =>
    let (addr, pool) := pool.constructRaw
    constructSegs n pool { b with segs := b.segs ++ [addr] }

def totalSegs (b : PooledBuffer) (len : Nat) : Nat :=
  (b.pos + len) / length + 1

def reserve (pool : SegmentPool) (b : PooledBuffer) (len : Nat) : SegmentPool × PooledBuffer :=
  constructSegs (sizeSub (b.totalSegs length len) b.segs.length) pool b

-- `none` reads past the end of `segs_` or does not terminate.
def appendLoop (fuel : Nat) (pool : SegmentPool) (b : PooledBuffer) (p : List UInt8)
    (written : Nat) : Option (Nat × SegmentPool × PooledBuffer) :=
  if p.length ≤ written then
    some (written, pool, b)
  else
    match fuel with
    | 0 => none
    | fuel + 1 =>
      b.segs[b.getWriteSeg length]?.bind fun addr =>
        let index :=
          if (pool.seg addr).length = length then b.getWriteSeg length + 1
          else b.getWriteSeg length
        b.segs[index]?.bind fun addr =>
          let (wl, seg) := SegmentBuffer.appendSeg length (pool.seg addr) (p.drop written)
          appendLoop fuel (pool.write addr seg) { b with pos := b.pos + wl } p (written + wl)

def append (pool : SegmentPool) (b : PooledBuffer) (p : List UInt8) :
    Option (Nat × SegmentPool × PooledBuffer) :=
  let (pool, b) := b.reserve length pool p.length
  appendLoop length p.length pool b p 0

-- The function `at`. `none` is a byte that has not been written.
def byteAt (pool : SegmentPool) (b : PooledBuffer) (pos : Nat) : Option UInt8 :=
  if pos ≥ b.pos then
    some 0
  else if b.segs = [] then
    some 0
  else
    b.segs[pos / length]?.bind fun addr => (pool.seg addr)[pos % length]?

def rewind (pool : SegmentPool) (b : PooledBuffer) : SegmentPool × PooledBuffer :=
  (b.segs.foldl (fun pool addr => pool.write addr []) pool, { b with pos := 0 })

def transfer (pool : SegmentPool) (b : PooledBuffer) : List Nat × SegmentPool × PooledBuffer :=
  if b.pos = 0 then
    ([], pool, b)
  else
    let last := b.getDataSeg length
    (b.segs.take (last + 1), rewind pool { b with segs := b.segs.drop (last + 1) })

def release (pool : SegmentPool) (segs : List Nat) : SegmentPool :=
  segs.foldl SegmentPool.destroy pool

-- The segments one after the other, each one up to its size.
def read (pool : SegmentPool) (segs : List Nat) : List UInt8 :=
  (segs.map pool.seg).flatten

inductive Call where
  | append (p : List UInt8)
  | transfer
  -- The list that is the `i`th of those still in use is released.
  | release (i : Nat)
  | rewind
  -- Another buffer takes a segment and fills it, writes to one that it has, or gives it back.
  | otherTakes (seg : Seg)
  | otherWrites (i : Nat) (seg : Seg)
  | otherGives (i : Nat)
  deriving DecidableEq, Repr

structure Use where
  pool : SegmentPool
  buffer : PooledBuffer
  -- The lists that have been transferred and not been released, and what they read as then.
  held : List (List Nat × List UInt8)
  others : List Nat
  appended : List UInt8
  returned : List UInt8
  -- The size that the buffer had when it was rewound, as long as nothing has been appended since.
  rewound : Nat

namespace Use

def init : Use :=
  ⟨SegmentPool.empty, PooledBuffer.empty, [], [], [], [], 0⟩

def step (u : Use) : Call → Option Use
  | .append p =>
    (u.buffer.append length u.pool p).map fun (_, pool, buffer) =>
      { u with pool, buffer, appended := u.appended ++ p, rewound := 0 }
  | .transfer =>
    let (segs, pool, buffer) := u.buffer.transfer length u.pool
    let bytes := read pool segs
    some
      { u with
        pool, buffer, held := u.held ++ [(segs, bytes)], returned := u.returned ++ bytes }
  | .release i =>
    match u.held[i]? with
    | some (segs, _) => some { u with pool := release u.pool segs, held := u.held.eraseIdx i }
    | none => some u
  | .rewind =>
    let (pool, buffer) := u.buffer.rewind u.pool
    some { u with pool, buffer, rewound := if u.buffer.pos = 0 then u.rewound else u.buffer.pos }
  | .otherTakes seg =>
    let (addr, pool) := u.pool.constructRaw
    some { u with pool := pool.write addr seg, others := u.others ++ [addr] }
  | .otherWrites i seg =>
    match u.others[i]? with
    | some addr => some { u with pool := u.pool.write addr seg }
    | none => some u
  | .otherGives i =>
    match u.others[i]? with
    | some addr => some { u with pool := u.pool.destroy addr, others := u.others.eraseIdx i }
    | none => some u

def machine : Machine Use Call where
  init := init
  step := step length

end Use
end PooledBuffer
end Lax
