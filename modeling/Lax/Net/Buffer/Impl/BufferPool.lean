import Mathlib.Algebra.GroupWithZero.Nat
import Mathlib.Logic.Function.Basic
import Lax.Foundation.Slice

/-!
This module contains the pool from which the buffers of the sessions take their blocks. Blocks of a
size class go back to the queue of the class, and longer ones are allocated from the operating system.
-/

namespace Lax

-- `fixed_size_buffer_pool::buffer`. A byte of a new block has no value before it is written.
structure Block where
  pool : Option Nat
  isAllocatedFromOs : Bool
  data : List (Option UInt8)

def Block.capacity (block : Block) : Nat :=
  block.data.length

structure FixedSizeBufferPool where
  length : Nat
  blocks : List Nat := []
  allocCount : UInt32 := 0
  totalAllocCount : UInt32 := 0
  totalReleaseCount : UInt32 := 0
  deriving DecidableEq, Repr

-- `multiple_size_buffer_pool`, with the memory in which all of its blocks are.
structure BufferPool where
  block : Nat → Block
  allocated : Nat
  pools : List FixedSizeBufferPool
  osAllocCount : UInt32
  osAllocBytes : UInt32
  totalOsAllocBytes : UInt32
  totalOsReleaseBytes : UInt32

namespace BufferPool

def startPowerOf2 : Nat := 6

def steps : Nat := 16

def initPools (size : Nat) : Nat → List FixedSizeBufferPool
  | 0 => []
  | n + 1 => { length := size } :: initPools (2 * size) n

def init : BufferPool :=
  ⟨fun _ => ⟨none, false, []⟩, 0, initPools (2 ^ startPowerOf2) steps, 0, 0, 0, 0⟩

def newBlock (pool : BufferPool) (block : Block) : Nat × BufferPool :=
  (pool.allocated,
    { pool with
      block := Function.update pool.block pool.allocated block
      allocated := pool.allocated + 1 })

-- `fixed_size_buffer_pool::alloc`
def allocFixed (pool : BufferPool) (i : Nat) (fixed : FixedSizeBufferPool) : Nat × BufferPool :=
  let fixed :=
    { fixed with
      allocCount := fixed.allocCount + 1
      totalAllocCount := fixed.totalAllocCount + 1 }
  match fixed.blocks with
  | addr :: blocks => (addr, { pool with pools := pool.pools.set i { fixed with blocks } })
  | [] =>
    { pool with pools := pool.pools.set i fixed }.newBlock
      ⟨some i, false, List.replicate fixed.length none⟩

def alloc (pool : BufferPool) (requiredSize : Nat) : Nat × BufferPool :=
  match pool.pools.findFinIdx? fun fixed => requiredSize ≤ fixed.length with
  | some i => pool.allocFixed i (pool.pools.get i)
  | none =>
    let bytes := pool.osAllocBytes + requiredSize.toUInt32
    { pool with
      osAllocCount := pool.osAllocCount + 1
      osAllocBytes := bytes
      totalOsAllocBytes := pool.totalOsAllocBytes + bytes }.newBlock
        ⟨none, true, List.replicate requiredSize none⟩

-- `fixed_size_buffer_pool::release`
def releaseFixed (pool : BufferPool) (i : Nat) (fixed : FixedSizeBufferPool) (addr : Nat) :
    BufferPool :=
  if (pool.block addr).capacity ≠ fixed.length then
    pool
  else
    let fixed :=
      { fixed with
        allocCount := fixed.allocCount - 1
        totalReleaseCount := fixed.totalReleaseCount + 1
        blocks := fixed.blocks ++ [addr] }
    { pool with pools := pool.pools.set i fixed }

-- Nobody has a block of the operating system any more when it has been released.
def release (pool : BufferPool) (addr : Nat) : BufferPool :=
  let block := pool.block addr
  if block.isAllocatedFromOs then
    { pool with
      osAllocCount := pool.osAllocCount - 1
      osAllocBytes := pool.osAllocBytes - block.capacity.toUInt32
      totalOsReleaseBytes := pool.totalOsReleaseBytes + block.capacity.toUInt32 }
  else
    match block.pool.bind fun i => pool.pools[i]?.map fun fixed => (i, fixed) with
    | some (i, fixed) => pool.releaseFixed i fixed addr
    | none => pool

def write (pool : BufferPool) (addr pos : Nat) (bytes : List (Option UInt8)) : BufferPool :=
  let block := pool.block addr
  let data := Slice.write block.data pos bytes
  { pool with block := Function.update pool.block addr { block with data } }

end BufferPool
end Lax
